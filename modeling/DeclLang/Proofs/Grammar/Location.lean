import DeclLang.Proofs.Grammar.Progress
import DeclLang.Proofs.Text.Place

/-!
# Where diagnostics are located

A token records nothing (`Mute.token`); what is wrong is recorded by the rules that are made of
tokens, and each of them records it where the reader is at that moment.  So a diagnostic is located
at a mark that the reader has passed on the way, under the name of the file that is read.  `Locates`
says so of an action; it is respected by every way to build a rule (`locates`), also where a rule
goes back afterwards.
-/

namespace DeclLang.Grammar

open Text

variable {α β : Type}

/-! ### Actions that record nothing -/

/-- The action records nothing. -/
def Mute (x : ReadM α) : Prop := ∀ r, (ReadM.run x r).2.recorded = r.recorded

namespace Mute

theorem pure (a : α) : Mute (pure a) := fun _ => rfl

theorem next {x : OptionT ReadM α} {f : α → OptionT ReadM β} (h : Mute x.run)
    (hf : ∀ a, Mute (f a).run) : Mute (x >>= f).run := by
  intro r
  have hx := h r
  rw [ReadM.run_next]
  rcases hrun : ReadM.run x.run r with ⟨_ | a, r'⟩ <;> rw [hrun] at hx
  · exact hx
  · exact (hf a r').trans hx

theorem token (kind : TokenKind) (expected : String) : Mute (ReadM.token kind expected).run := by
  intro r
  rw [ReadM.run_token]
  cases kind.find? expected r.mark.skipSpace <;> rfl

theorem keyword (text : String) : Mute (Scanner.keyword (m := ReadM) text).run :=
  next (token .keyword text) fun _ => pure _

theorem identifier : Mute (Scanner.identifier (m := ReadM)).run := token .identifier ""

theorem typeName : Mute (Scanner.typeName (m := ReadM)).run := token .typeName ""

theorem indent : Mute (Scanner.indent (m := ReadM)).run := by
  intro r
  rw [ReadM.run_indent]
  cases r.mark.indent? <;> rfl

end Mute

/-! ### Located diagnostics -/

/-- What the action records is located at marks it has passed. -/
def Locates (x : ReadM α) : Prop :=
  ∀ r, ∃ new, (ReadM.run x r).2.recorded = r.recorded ++ new ∧
    ∀ d ∈ new, ∃ cs m, r.mark.Passes cs m ∧ d.location = ⟨r.filename, m.place⟩

namespace Locates

theorem of_mute {x : ReadM α} (h : Mute x) : Locates x := fun r =>
  ⟨[], by rw [h r, List.append_nil], by simp⟩

theorem bind {x : ReadM α} {f : α → ReadM β} (hx : Advances x) (h : Locates x)
    (hf : ∀ a, Locates (f a)) : Locates (x >>= f) := by
  intro r
  obtain ⟨cs, -, hpass, hname, -⟩ := hx r
  obtain ⟨new, hrecorded, hnew⟩ := h r
  obtain ⟨new', hrecorded', hnew'⟩ := hf (ReadM.run x r).1 (ReadM.run x r).2
  refine ⟨new ++ new', ?_, fun d hd => ?_⟩
  · rw [ReadM.run_bind, hrecorded', hrecorded, List.append_assoc]
  rcases List.mem_append.1 hd with hd | hd
  · exact hnew d hd
  · obtain ⟨ds, m, hpass', hlocation⟩ := hnew' d hd
    exact ⟨cs ++ ds, m, hpass.trans hpass', by rw [hlocation, hname]⟩

theorem attempt {x : OptionT ReadM α} (h : Locates x.run) : Locates (Scanner.attempt x).run := by
  intro r
  -- A failure goes back to the mark, and what it recorded stays.
  obtain ⟨new, hrecorded, hnew⟩ := h r
  refine ⟨new, ?_, hnew⟩
  rw [ReadM.run_attempt]
  rcases hrun : ReadM.run x.run r with ⟨_ | a, r'⟩ <;> rw [hrun] at hrecorded <;> exact hrecorded

theorem report (kind : Diagnostic.Kind) : Locates (report (m := ReadM) kind).run := fun r =>
  ⟨[⟨kind, ⟨r.filename, r.mark.place⟩⟩], rfl, by simpa using ⟨[], r.mark, .refl r.mark, rfl⟩⟩

end Locates

/-- The two are one action, which moves forward and locates what it records. -/
def Located (α : Type) (x y : ReadM α) : Prop := x = y ∧ Advances x ∧ Locates x

/-- **Every rule locates its diagnostics where it has been.** -/
theorem locates : Simulation (m := ReadM) (n := ReadM) Located where
  pure a := ⟨rfl, .pure a, .of_mute (.pure a)⟩
  bind h hf := ⟨by rw [h.1, funext fun a => (hf a).1], h.2.1.bind fun a => (hf a).2.1,
    h.2.2.bind h.2.1 fun a => (hf a).2.2⟩
  keyword text := ⟨rfl, (advances.keyword text).2, .of_mute (.keyword text)⟩
  identifier := ⟨rfl, advances.identifier.2, .of_mute .identifier⟩
  typeName := ⟨rfl, advances.typeName.2, .of_mute .typeName⟩
  indent := ⟨rfl, advances.indent.2, .of_mute .indent⟩
  attempt h := ⟨congrArg (fun z => (Scanner.attempt z).run) h.1, h.2.1.attempt, h.2.2.attempt⟩
  remaining := ⟨rfl, advances.remaining.2, .of_mute fun _ => rfl⟩
  report kind := ⟨rfl, (advances.report kind).2, .report kind⟩

/-- What a call records from a mark of a text is true of that text. -/
theorem isIn_of_reading {call : Call} {r : Reading} {text : String} (h : r.mark.On text) :
    ∃ new, (ReadM.run call.rule.run r).2.recorded = r.recorded ++ new ∧
      ∀ d ∈ new, d.location.IsIn text r.filename := by
  obtain ⟨new, hrecorded, hnew⟩ := (locates.call call).2.2 r
  refine ⟨new, hrecorded, fun d hd => ?_⟩
  obtain ⟨cs, m, hpass, hlocation⟩ := hnew d hd
  rw [hlocation]
  exact (h.passes hpass).isIn r.filename

end DeclLang.Grammar
