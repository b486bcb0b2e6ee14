import DeclLang.Grammar.Rules
import DeclLang.Proofs.Grammar.Reading
import DeclLang.Proofs.Grammar.Simulation

/-!
# Reading moves forward

A rule never leaves the reader before the mark it began at, under another file name, or with fewer
diagnostics.  `Advances` says so of an action.  It is respected by every way to build a rule
(`advances`), so it holds of all of them: `advances.declaration.2 : Advances declaration.run`.
-/

namespace DeclLang.Grammar

open Text

/-- The action passes a text, and adds to the diagnostics. -/
def Advances {α : Type} (x : ReadM α) : Prop :=
  ∀ r, ∃ cs recorded, r.mark.Passes cs (ReadM.run x r).2.mark ∧
    (ReadM.run x r).2.filename = r.filename ∧
      (ReadM.run x r).2.recorded = r.recorded ++ recorded

namespace Advances

variable {α β : Type}

theorem pure (a : α) : Advances (pure a) := fun r =>
  ⟨[], [], .refl r.mark, rfl, (List.append_nil _).symm⟩

theorem bind {x : ReadM α} {f : α → ReadM β} (h : Advances x) (hf : ∀ a, Advances (f a)) :
    Advances (x >>= f) := by
  intro r
  obtain ⟨cs, recorded, hpass, hname, hrecorded⟩ := h r
  obtain ⟨ds, recorded', hpass', hname', hrecorded'⟩ := hf (ReadM.run x r).1 (ReadM.run x r).2
  refine ⟨cs ++ ds, recorded ++ recorded', hpass.trans hpass', hname'.trans hname, ?_⟩
  rw [ReadM.run_bind, hrecorded', hrecorded, List.append_assoc]

theorem next {x : OptionT ReadM α} {f : α → OptionT ReadM β} (h : Advances x.run)
    (hf : ∀ a, Advances (f a).run) : Advances (x >>= f).run := by
  rw [OptionT.run_bind]
  refine h.bind fun found => ?_
  cases found with
  | none => exact pure none
  | some a => exact hf a

theorem token (kind : TokenKind) (expected : String) :
    Advances (ReadM.token kind expected).run := by
  intro r
  have hspace := r.mark.skipSpace_passes
  rw [ReadM.run_token]
  cases hfound : kind.find? expected r.mark.skipSpace with
  | none => exact ⟨_, [], hspace, rfl, (List.append_nil _).symm⟩
  | some found =>
    exact ⟨_, [], hspace.trans (TokenKind.passes_of_find? hfound), rfl,
      (List.append_nil _).symm⟩

theorem indent : Advances (Scanner.indent (m := ReadM)).run := by
  intro r
  rw [ReadM.run_indent]
  cases hindent : r.mark.indent? with
  | none => exact pure none r
  | some found =>
    obtain ⟨tail, pad, -, -, -, -, -, hpass⟩ := Mark.indent?_eq_some_iff.1 hindent
    exact ⟨_, [], hpass, rfl, (List.append_nil _).symm⟩

theorem attempt {x : OptionT ReadM α} (h : Advances x.run) : Advances (Scanner.attempt x).run := by
  intro r
  -- A failure goes back to the mark, but the diagnostics it recorded stay.
  obtain ⟨cs, recorded, hpass, hname, hrecorded⟩ := h r
  rw [ReadM.run_attempt]
  rcases hrun : ReadM.run x.run r with ⟨_ | a, r'⟩ <;> rw [hrun] at hpass hname hrecorded
  · exact ⟨[], recorded, .refl r.mark, hname, hrecorded⟩
  · exact ⟨cs, recorded, hpass, hname, hrecorded⟩

end Advances

/-- **Every rule moves forward.**  A reader is compared with itself, since a simulation relates the
actions of two scanners. -/
theorem advances :
    Simulation (m := ReadM) (n := ReadM) (fun _ x y => x = y ∧ Advances x) where
  pure a := ⟨rfl, .pure a⟩
  bind h hf := ⟨by rw [h.1, funext fun a => (hf a).1], h.2.bind fun a => (hf a).2⟩
  keyword text := ⟨rfl, .next (.token .keyword text) fun _ => .pure _⟩
  identifier := ⟨rfl, .token .identifier ""⟩
  typeName := ⟨rfl, .token .typeName ""⟩
  indent := ⟨rfl, .indent⟩
  attempt h := ⟨congrArg (fun z => (Scanner.attempt z).run) h.1, h.2.attempt⟩
  remaining := ⟨rfl, fun r => ⟨[], [], .refl r.mark, rfl, (List.append_nil _).symm⟩⟩
  report kind := ⟨rfl, fun r =>
    ⟨[], [⟨kind, ⟨r.filename, r.mark.place⟩⟩], .refl r.mark, rfl, rfl⟩⟩

end DeclLang.Grammar
