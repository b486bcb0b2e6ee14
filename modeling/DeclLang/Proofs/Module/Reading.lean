import Mathlib.Data.List.Forall2
import DeclLang.Module
import DeclLang.Proofs.Grammar.Memoization
import DeclLang.Proofs.Grammar.Spelling

/-!
# Modules, declaration by declaration

`Declares filename m parts` says that the text from the mark `m` on is nothing but declarations,
each read by a plain reader where the one before it ended.  There is no bound in it, no memo table
and no diagnostics kept aside: `Module.parse_eq_ok_iff` says that these modules are the ones that
`Module.parse` returns.

The bound on the number of declarations is no bound because a declaration takes at least one
character (`length_lt_of_declaration`).

What a declaration takes is its spelling and blanks, so a text that is accepted is spelled by its
declarations, one after another (`Module.squeeze_of_parse`).
-/

namespace DeclLang

open Grammar Text

/-! ### One declaration -/

theorem Declaration.Spelled.ne_nil {d : Declaration} {w : List Char} (h : d.Spelled w) :
    w ≠ [] := by
  cases h with
  | type d => cases d <;> exact List.cons_ne_nil 't' _
  | function s equals => simp

/-- A declaration takes at least one character. -/
theorem length_lt_of_declaration {d : Declaration} {r r' : Reading}
    (h : ReadM.run declaration.run r = (some d, r')) :
    r'.mark.rest.length < r.mark.rest.length := by
  obtain ⟨w, hw, hsqueeze⟩ := Yields.declaration r d r' h
  obtain ⟨cs, -, hpass, -, -⟩ := advances.declaration.2 r
  simp only [h] at hpass
  -- Without its blanks the text that is passed is the spelling, and no spelling is empty.
  have hcs : cs ≠ [] := by
    rintro rfl
    rw [squeeze_of_passes hpass] at hsqueeze
    exact hw.ne_nil (List.self_eq_append_left.1 hsqueeze)
  have := List.length_pos_iff.2 hcs
  rw [hpass.1, List.length_append]
  omega

/-- A declaration behind blanks takes at least one character. -/
theorem length_lt_of_declaration_skipSpace {filename : String} {m : Mark} {d : Declaration}
    {r' : Reading} (h : ReadM.run declaration.run ⟨filename, m.skipSpace, []⟩ = (some d, r')) :
    r'.mark.rest.length < m.rest.length := by
  have hspace := congrArg List.length m.skipSpace_passes.1
  have htaken := length_lt_of_declaration h
  rw [List.length_append] at hspace
  simp only at htaken
  omega

/-- A declaration does not change the name of the file. -/
theorem filename_of_declaration {d : Declaration} {r r' : Reading}
    (h : ReadM.run declaration.run r = (some d, r')) : r'.filename = r.filename := by
  obtain ⟨-, -, -, hname, -⟩ := advances.declaration.2 r
  rwa [h] at hname

/-! ### A whole text -/

/-- The text from a mark on is these declarations, each with the diagnostics it recorded. -/
inductive Declares (filename : String) : Mark → List (Declaration × List Diagnostic) → Prop
  | nil {m : Mark} : m.skipSpace.rest = [] → Declares filename m []
  | cons {m m' : Mark} {d : Declaration} {recorded : List Diagnostic}
      {parts : List (Declaration × List Diagnostic)} : m.skipSpace.rest ≠ [] →
      ReadM.run declaration.run ⟨filename, m.skipSpace, []⟩ = (some d, ⟨filename, m', recorded⟩) →
      Declares filename m' parts → Declares filename m ((d, recorded) :: parts)

namespace Module

theorem run_items_succ (kept : List Diagnostic) (k : Nat) (r : Reading) :
    (ReadM.run (items kept (k + 1)) r).1 =
      if r.mark.skipSpace.rest.isEmpty then .ok [] else
        match ReadM.run declaration.run { r with mark := r.mark.skipSpace } with
        | (some d, r') => (ReadM.run (items (kept ++ r'.recorded) k)
            { r' with recorded := [] }).1.map ((d, r'.recorded) :: ·)
        | (none, r') => .error ((r'.recorded ++ kept).headD
            ⟨.syntaxError, ⟨r'.filename, r'.mark.place⟩⟩) := by
  rw [items_succ, ReadM.run_bind, ReadM.run_bind]
  change (ReadM.run (if r.mark.skipSpace.rest.isEmpty then _ else _)
    { r with mark := r.mark.skipSpace }).1 = _
  by_cases hend : r.mark.skipSpace.rest.isEmpty = true
  · rw [if_pos hend, if_pos hend]; rfl
  · rw [if_neg hend, if_neg hend, ReadM.run_bind]
    rcases ReadM.run declaration.run { r with mark := r.mark.skipSpace } with ⟨_ | d, r'⟩ <;> rfl

/-- A plain reader returns the declarations of the text, however many they are. -/
theorem run_items_eq_ok_iff {filename : String} {m : Mark} {kept : List Diagnostic} {k : Nat}
    {parts : List (Declaration × List Diagnostic)} (hk : m.rest.length < k) :
    (ReadM.run (items kept k) ⟨filename, m, []⟩).1 = .ok parts ↔ Declares filename m parts := by
  -- The text that is left stays shorter than the bound, since a declaration takes some of it.
  induction k generalizing m kept parts with
  | zero => omega
  | succ k ih =>
    rw [run_items_succ]
    by_cases hend : m.skipSpace.rest = []
    · rw [if_pos (List.isEmpty_iff.2 hend)]
      constructor
      · intro h
        cases h
        exact .nil hend
      · intro h
        cases h with
        | nil => rfl
        | cons hsome => exact absurd hend hsome
    rw [if_neg (mt List.isEmpty_iff.1 hend)]
    rcases hrun : ReadM.run declaration.run ⟨filename, m.skipSpace, []⟩ with
      ⟨_ | d, ⟨filename', m', recorded⟩⟩
    · constructor
      · intro h
        cases h
      · intro h
        cases h with
        | nil hnone => exact absurd hnone hend
        | cons _ hrun' => rw [hrun] at hrun'; cases hrun'
    · obtain rfl : filename' = filename := filename_of_declaration hrun
      have hk' : m'.rest.length < k :=
        (length_lt_of_declaration_skipSpace hrun).trans_le (Nat.le_of_lt_succ hk)
      change (ReadM.run (items (kept ++ recorded) k) ⟨filename', m', []⟩).1.map _ = _ ↔ _
      constructor
      · intro h
        cases hitems : (ReadM.run (items (kept ++ recorded) k) ⟨filename', m', []⟩).1 with
        | error e => rw [hitems] at h; cases h
        | ok others =>
          rw [hitems] at h
          cases h
          exact .cons hend hrun ((ih hk').1 hitems)
      · intro h
        cases h with
        | nil hnone => exact absurd hnone hend
        | cons _ hrun' hothers =>
          rw [hrun] at hrun'
          cases hrun'
          rw [(ih hk').2 hothers]
          rfl

/-! ### The parser -/

/-- A parser reads declarations as a plain reader does. -/
theorem agree_items (kept : List Diagnostic) (k : Nat) :
    Agree [] _ (items (m := ParseM) kept k) (items (m := ReadM) kept k) := by
  induction k generalizing kept with
  | zero => exact Agree.pure _
  | succ k ih =>
    refine Agree.skipSpace.bind fun _ => Agree.atEnd.bind fun atEnd => ?_
    by_cases hend : atEnd = true
    · rw [if_pos hend, if_pos hend]
      exact Agree.pure _
    rw [if_neg hend, if_neg hend]
    refine (ParseM.simulation []).declaration.bind fun result => ?_
    refine Agree.takeRecorded.bind fun recorded => ?_
    cases result with
    | some d => exact (ih (kept ++ recorded)).bind fun others => Agree.pure _
    | none => exact Agree.location.bind fun place => Agree.pure _

/-- A text is parsed as what a plain reader reads in it. -/
theorem parse_eq_run (text filename : String) :
    parse text filename = (ReadM.run (body filename) ⟨filename, .start text, []⟩).1 := by
  have hbody : Agree [] _ (body (m := ParseM) filename) (body (m := ReadM) filename) :=
    Agree.remaining.bind fun k => (agree_items [] (k + 1)).bind fun parts => Agree.pure _
  obtain ⟨s, hrun, -, -⟩ := hbody ⟨.empty, .start ⟨0, text⟩ filename⟩ ⟨filename, .start text, []⟩
    ⟨MemoTable.faithful_empty, .start text, rfl, rfl, rfl⟩
  rw [parse, hrun]

/-- **A text is parsed if and only if it is nothing but declarations.** -/
theorem parse_eq_ok_iff {text filename : String} {module : Module} :
    parse text filename = .ok module ↔ ∃ parts, Declares filename (.start text) parts ∧
      module = ⟨filename, parts.map Prod.fst, parts.flatMap Prod.snd⟩ := by
  have hitems {parts : List (Declaration × List Diagnostic)} :=
    @run_items_eq_ok_iff filename (.start text) [] _ parts (Nat.lt_succ_self _)
  rw [parse_eq_run]
  change (ReadM.run (items [] ((Mark.start text).rest.length + 1))
    ⟨filename, .start text, []⟩).1.map _ = _ ↔ _
  constructor
  · intro h
    cases hrun : (ReadM.run (items [] ((Mark.start text).rest.length + 1))
      ⟨filename, .start text, []⟩).1 with
    | error e => rw [hrun] at h; cases h
    | ok parts =>
      rw [hrun] at h
      cases h
      exact ⟨parts, hitems.1 hrun, rfl⟩
  · rintro ⟨parts, hparts, rfl⟩
    rw [hitems.2 hparts]
    rfl

end Module

/-! ### Nothing is lost -/

theorem Declares.squeeze {filename : String} {m : Mark}
    {parts : List (Declaration × List Diagnostic)} (h : Declares filename m parts) :
    ∃ spellings, List.Forall₂ Declaration.Spelled (parts.map Prod.fst) spellings ∧
      squeeze m.rest = spellings.flatten := by
  induction h with
  | nil hend =>
    refine ⟨[], .nil, ?_⟩
    rw [← squeeze_skipSpace, hend]; rfl
  | cons _ hrun _ ih =>
    obtain ⟨w, hw, hsqueeze⟩ := Yields.declaration _ _ _ hrun
    obtain ⟨spellings, hspelled, hothers⟩ := ih
    refine ⟨w :: spellings, .cons hw hspelled, ?_⟩
    rw [← squeeze_skipSpace, hsqueeze, hothers, List.flatten_cons]

namespace Module

/-- **Nothing in an accepted text is dropped, read twice or out of order.**  Without its blanks the
text is the declarations of the module, spelled one after another. -/
theorem squeeze_of_parse {text filename : String} {module : Module}
    (h : parse text filename = .ok module) :
    ∃ spellings, List.Forall₂ Declaration.Spelled module.declarations spellings ∧
      squeeze text.toList = spellings.flatten := by
  obtain ⟨parts, hparts, rfl⟩ := parse_eq_ok_iff.1 h
  exact hparts.squeeze

/-- A sign with no output behind it is accepted, and has to be spelled. -/
theorem squeeze_of_parse_idle_sign :
    ∃ module, parse "f :: \x7b A : B \x7d =\ntype A\n  B" "f" = .ok module ∧
      ∃ spellings, List.Forall₂ Declaration.Spelled module.declarations spellings ∧
        squeeze "f :: \x7b A : B \x7d =\ntype A\n  B".toList = spellings.flatten := by
  have hok : (parse "f :: \x7b A : B \x7d =\ntype A\n  B" "f").toOption.isSome = true := by
    decide +kernel
  cases h : parse "f :: \x7b A : B \x7d =\ntype A\n  B" "f" with
  | error e => rw [h] at hok; cases hok
  | ok module => exact ⟨module, rfl, squeeze_of_parse h⟩

end Module

end DeclLang
