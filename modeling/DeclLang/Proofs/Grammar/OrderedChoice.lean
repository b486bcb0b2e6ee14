import DeclLang.Proofs.Grammar.Misreading
import DeclLang.Proofs.Grammar.Position
import DeclLang.Proofs.Grammar.Session

/-!
# The order of the choice

A declaration is a type definition, or else a signature.  The two are never both there.  Where a
signature is there its name and its colons come next, and a definition that is begun by that name is
given up (`run_typeDefinition_of_name`): the keyword may be all of the name or the beginning of it,
and the first colon may be taken for that of a block, but behind the second one no member line
begins.  So the order in which the two are tried matters for the diagnostics alone.

What the first attempt records does not matter to the second one (`oblivious`), and its tokens in
the memo table do not either.  Only the lines and columns that a cursor counts may come from the
table, if it was filled by a cursor that has read a line feed as a single character.  Without such
cursors the two orders leave the cursor in the same state.
-/

namespace DeclLang

namespace Grammar

open Text Scanner

/-! ### What is recorded does not matter -/

/-- From one mark the two actions return the same and end at the same mark, whatever is recorded. -/
def Oblivious (α : Type) (x y : ReadM α) : Prop :=
  ∀ r r', r'.mark = r.mark → (ReadM.run y r').1 = (ReadM.run x r).1 ∧
    (ReadM.run y r').2.mark = (ReadM.run x r).2.mark

namespace Oblivious

variable {α β : Type}

theorem bind {x y : ReadM α} {f g : α → ReadM β} (h : Oblivious α x y)
    (hf : ∀ a, Oblivious β (f a) (g a)) : Oblivious β (x >>= f) (y >>= g) := by
  intro r r' hr
  obtain ⟨hresult, hmark⟩ := h r r' hr
  rw [ReadM.run_bind, ReadM.run_bind, hresult]
  exact hf _ _ _ hmark

theorem token (kind : TokenKind) (expected : String) :
    Oblivious _ (ReadM.token kind expected).run (ReadM.token kind expected).run := by
  intro r r' hr
  rw [ReadM.run_token, ReadM.run_token, hr]
  cases kind.find? expected r.mark.skipSpace <;> exact ⟨rfl, rfl⟩

theorem keyword (text : String) : Oblivious _ (Scanner.keyword (m := ReadM) text).run
    (Scanner.keyword (m := ReadM) text).run := by
  intro r r' hr
  rw [ReadM.run_keyword, ReadM.run_keyword, hr]
  cases r.mark.skipSpace.literal? text.toList <;> exact ⟨rfl, rfl⟩

theorem indent : Oblivious _ (Scanner.indent (m := ReadM)).run
    (Scanner.indent (m := ReadM)).run := by
  intro r r' hr
  rw [ReadM.run_indent, ReadM.run_indent, hr]
  cases r.mark.indent? with
  | none => exact ⟨rfl, hr⟩
  | some found => exact ⟨rfl, rfl⟩

theorem attempt {x y : OptionT ReadM α} (h : Oblivious _ x.run y.run) :
    Oblivious _ (Scanner.attempt x).run (Scanner.attempt y).run := by
  intro r r' hr
  obtain ⟨hresult, hmark⟩ := h r r' hr
  rw [ReadM.run_attempt, ReadM.run_attempt]
  rcases hx : ReadM.run x.run r with ⟨_ | a, r₁⟩ <;>
    rcases hy : ReadM.run y.run r' with ⟨_ | b, r₂⟩ <;> rw [hx, hy] at hresult hmark
  · exact ⟨rfl, hr⟩
  · cases hresult
  · cases hresult
  · exact ⟨hresult, hmark⟩

end Oblivious

/-- **What is recorded has no influence on a rule.** -/
theorem oblivious : Simulation (m := ReadM) (n := ReadM) Oblivious where
  pure _ _ _ hr := ⟨rfl, hr⟩
  bind := .bind
  keyword := .keyword
  identifier := .token .identifier ""
  typeName := .token .typeName ""
  indent := .indent
  attempt := .attempt
  remaining _ _ hr := ⟨congrArg (fun m => m.rest.length) hr, hr⟩
  report _ _ _ hr := ⟨rfl, hr⟩

/-! ### A definition or a signature -/

section Choice

variable {r r' : Reading}

/-- What a form returns does not depend on the blanks before it. -/
theorem run_attempt_of_skipSpace {α : Type} {text : String} {f : Unit → OptionT ReadM α} {a : α}
    (h : ReadM.run (attempt (keyword text >>= f)).run r = (some a, r')) :
    ReadM.run (attempt (keyword text >>= f)).run { r with mark := r.mark.skipSpace } =
      (some a, r') := by
  rw [ReadM.run_attempt_eq_some_iff, ReadM.run_next, ReadM.run_keyword] at h ⊢
  simpa only [Mark.skipSpace_skipSpace] using h

/-- **Where there is a type definition there is no signature.** -/
theorem run_signature_of_typeDefinition {d : TypeDefinition}
    (h : ReadM.run typeDefinition.run r = (some d, r')) :
    ReadM.run signature.run r = (none, r) := by
  rcases run_signature r with hnone | ⟨s, r₁, gap, more, -, hname, hgap, hpass, -⟩
  · exact hnone
  · have hrest : r.mark.skipSpace.rest =
        s.name.toList ++ (gap ++ ':' :: ':' :: (more ++ r₁.mark.rest)) := by
      rw [hpass.1]
      simp
    have hnone :=
      run_typeDefinition_of_name (r := { r with mark := r.mark.skipSpace }) hname hgap hrest
    rw [typeDefinition] at h hnone
    rw [run_attempt_of_skipSpace h] at hnone
    cases hnone

/-- The same choice, tried in the opposite order. -/
def signatureFirst {m : Type → Type} [Monad m] [Scanner m] : OptionT m Declaration :=
  .function <$> signature <|> .type <$> typeDefinition

theorem Simulation.signatureFirst {m n : Type → Type} [Monad m] [Monad n] [Scanner m] [Scanner n]
    {R : (α : Type) → m α → n α → Prop} (S : Simulation R) :
    R _ (signatureFirst (m := m)).run (signatureFirst (m := n)).run :=
  S.orElse (S.map _ S.signature) (S.map _ S.typeDefinition)

/-- **The order of the choice does not matter.**  A declaration is the same in either order, and
ends at the same mark. -/
theorem run_signatureFirst (r : Reading) :
    (ReadM.run signatureFirst.run r).1 = (ReadM.run declaration.run r).1 ∧
      (ReadM.run signatureFirst.run r).2.mark = (ReadM.run declaration.run r).2.mark := by
  rw [run_declaration, signatureFirst, ReadM.run_orElse, ReadM.run_map]
  rcases hdefinition : ReadM.run typeDefinition.run r with ⟨_ | d, r₁⟩
  · have hmark : r₁.mark = r.mark := mark_of_attempt_none hdefinition
    obtain ⟨hresult, hend⟩ := oblivious.signature r r₁ hmark
    rcases hsignature : ReadM.run signature.run r with ⟨_ | s, r₂⟩ <;>
      rw [hsignature] at hresult hend
    · -- No signature is there, and that leaves no trace.
      obtain rfl : r₂ = r := by
        rcases run_signature r with hnone | ⟨s, r₃, gap, more, hsome, -⟩
        · exact congrArg Prod.snd (hsignature.symm.trans hnone)
        · cases hsignature.symm.trans hsome
      simp only [Option.map_none]
      rw [ReadM.run_map, hdefinition, hresult, hend]
      exact ⟨rfl, hmark⟩
    · simp only [Option.map_some]
      rw [hresult, hend]
      exact ⟨rfl, rfl⟩
  · rw [run_signature_of_typeDefinition hdefinition]
    simp only [Option.map_none]
    rw [ReadM.run_map, hdefinition]
    exact ⟨rfl, rfl⟩

end Choice

/-! ### The rule -/

/-- A type definition and a signature are not both there, and in whatever order they are tried, the
declaration is the same and the cursors behind it are related. -/
structure Parser.Unambiguous (parser : Parser) (c : Cursor) (same : Cursor → Cursor → Prop) :
    Prop where
  apart : ∃ definition function s s', parser.run c typeDefinition = .ok (definition, s) ∧
    parser.run c signature = .ok (function, s') ∧ (definition = none ∨ function = none)
  order : ∃ result s s', parser.run c declaration = .ok (result, s) ∧
    parser.run c signatureFirst = .ok (result, s') ∧ same s.cursor s'.cursor

/-- The readings of the two rules do not both succeed, so no parser that takes their steps does. -/
theorem apart_of_reading (c : Cursor) : (Call.typeDefinition.reading c).1 = none ∨
    (Call.signature.reading c).1 = none := by
  rcases hdefinition : Call.typeDefinition.reading c with ⟨_ | d, r⟩
  · exact .inl rfl
  · have hnone : Call.signature.reading c = _ := run_signature_of_typeDefinition hdefinition
    exact .inr (congrArg Prod.fst hnone)

/-- **The choice of a declaration is unambiguous.**  Whatever a parser has seen before and wherever
its cursor is, a type definition and a signature are not both there, and tried in the opposite order
they are the same declaration and end at the same position.  If all cursors are moved by rules and
without losing count of lines, then the cursor ends in the same state. -/
theorem declaration_unambiguous :
    (∀ {parser : Parser} {c : Cursor}, parser.Reached → c.mark.Fits c.source.text →
      parser.Unambiguous c fun c₁ c₂ => c₁.mark.Meets c₂.mark) ∧
    ∀ {files files' : Nat → Source × String} {s s' : Session}, (Session.start files).Reachable s →
      (Session.start files').Reachable s' → ∀ i, s'.parser.Unambiguous (s.cursors i) (· = ·) := by
  constructor
  · intro parser c h hc
    obtain ⟨after₁, hdefinition, -⟩ := h.run_call hc .typeDefinition
    obtain ⟨after₂, hsignature, -⟩ := h.run_call hc .signature
    obtain ⟨after, hdeclaration, hafter⟩ := h.run_call hc .declaration
    obtain ⟨after', hopposite, hafter'⟩ :=
      Parser.run_of_truthful h.truthful hc (ParseM.shadowing parser.recorded).signatureFirst
    obtain ⟨hresult, hmark⟩ := run_signatureFirst ⟨c.filename, c.mark, []⟩
    rw [hresult] at hopposite
    refine ⟨⟨_, _, after₁, after₂, hdefinition, hsignature, apart_of_reading c⟩,
      ⟨_, after, after', hdeclaration, hopposite, ?_⟩⟩
    exact hafter.mark.symm.trans (hmark ▸ hafter'.mark)
  · intro files files' s s' h h' i
    have hmemo := (Session.Sound.of_reachable h').faithful
    have hc := ((Session.Sound.of_reachable h).within i).mark
    obtain ⟨_, -, -, hdefinition⟩ := Parser.run_call hmemo hc .typeDefinition
    obtain ⟨_, -, -, hsignature⟩ := Parser.run_call hmemo hc .signature
    obtain ⟨_, -, -, hdeclaration⟩ := Parser.run_call hmemo hc .declaration
    obtain ⟨_, -, -, hopposite⟩ := Parser.run_of_faithful hmemo hc
      (ParseM.simulation s'.parser.recorded).signatureFirst
    obtain ⟨hresult, hmark⟩ :=
      run_signatureFirst ⟨(s.cursors i).filename, (s.cursors i).mark, []⟩
    rw [hresult, hmark] at hopposite
    exact ⟨⟨_, _, _, _, hdefinition, hsignature, apart_of_reading _⟩,
      ⟨_, _, _, hdeclaration, hopposite, rfl⟩⟩

/-- A function whose name begins with the keyword, and behind it a line that could be a member.  The
parser has tried to read a definition, so the table holds the keyword, the rest of the name and the
first colon. -/
theorem declaration_unambiguous_keyword :
    ∃ s, (Session.start fun _ => (⟨0, "typeA ::\n  B C"⟩, "f")).Reachable s ∧
      s.parser.memo.size = 3 ∧ s.parser.Unambiguous (s.cursors 0) (· = ·) ∧
      (s.parser.run (s.cursors 0) declaration).toOption.map Prod.fst =
        some (some (.function ⟨"typeA", some [.plain "B", .plain "C"], none⟩)) ∧
      ∃ c : Cursor, c.mark.Fits c.source.text ∧ c.mark.place = ⟨1, 1, 2⟩ ∧
        Parser.empty.Unambiguous c fun c₁ c₂ => c₁.mark.Meets c₂.mark := by
  obtain ⟨memo, -, -, hseen⟩ := @Parser.run_call .empty (.start ⟨0, "typeA ::\n  B C"⟩ "f")
    MemoTable.faithful_empty (.start _) .typeDefinition
  have h : (Session.start fun _ => (⟨0, "typeA ::\n  B C"⟩, "f")).Reachable _ :=
    .single (.call 0 .typeDefinition hseen)
  have hc : (Cursor.start ⟨0, "\ntypeA ::"⟩ "f").read.2.mark.Fits "\ntypeA ::" :=
    (Mark.Fits.start _).takes (Mark.read?_takes rfl)
  have heval : ((Parser.empty.run (.start ⟨0, "typeA ::\n  B C"⟩ "f")
      Call.typeDefinition.rule).toOption.bind fun s => (s.2.parser.run s.2.cursor
        declaration).toOption.map fun t => (s.2.parser.memo.size, t.1)) =
      some (3, some (.function ⟨"typeA", some [.plain "B", .plain "C"], none⟩)) := by
    decide +kernel
  rw [hseen] at heval
  obtain ⟨t, hrun, ht⟩ := Option.map_eq_some_iff.1 heval
  refine ⟨_, h, congrArg Prod.fst ht, declaration_unambiguous.2 h h 0, ?_, _, hc, rfl,
    declaration_unambiguous.1 (c := (Cursor.start ⟨0, "\ntypeA ::"⟩ "f").read.2) .empty hc⟩
  exact Option.map_eq_some_iff.2 ⟨t, hrun, congrArg Prod.snd ht⟩

end Grammar

end DeclLang
