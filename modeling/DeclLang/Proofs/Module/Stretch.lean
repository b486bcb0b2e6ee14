import DeclLang.Proofs.Grammar.Misreading
import DeclLang.Proofs.Module.Reading

/-!
# How far the declarations of a text reach

`Stretch filename m parts m'` says that the text from the mark `m` on begins with these
declarations, and that `m'` is the mark behind them and the blanks that follow.  A text is accepted
if a stretch reaches its end (`declares_iff`), and refused if a stretch ends where there is more of
the text but no declaration (`Module.parse_eq_error_iff`).

A declaration records what is wrong inside it before what is wrong behind it, and behind it there
is something wrong only at a bracket, where no declaration begins.  So the diagnostics of a stretch
come in the order of the text (`Stretch.pairwise`).
-/

namespace DeclLang

open Grammar Text

/-- From the first mark on there are these declarations, each with the diagnostics it recorded, and
behind them and the blanks is the second mark. -/
inductive Stretch (filename : String) :
    Mark → List (Declaration × List Diagnostic) → Mark → Prop
  | nil (m : Mark) : Stretch filename m [] m.skipSpace
  | cons {m m' m'' : Mark} {d : Declaration} {recorded : List Diagnostic}
      {parts : List (Declaration × List Diagnostic)} :
      ReadM.run declaration.run ⟨filename, m.skipSpace, []⟩ = (some d, ⟨filename, m', recorded⟩) →
      Stretch filename m' parts m'' → Stretch filename m ((d, recorded) :: parts) m''

variable {filename : String} {m m' : Mark} {d : Declaration} {recorded : List Diagnostic}
  {parts : List (Declaration × List Diagnostic)}

theorem ne_nil_of_declaration {r r' : Reading}
    (h : ReadM.run declaration.run r = (some d, r')) : r.mark.rest ≠ [] :=
  List.ne_nil_of_length_pos (Nat.zero_lt_of_lt (length_lt_of_declaration h))

/-- A text is nothing but declarations if they reach its end. -/
theorem declares_iff : Declares filename m parts ↔
    ∃ m', Stretch filename m parts m' ∧ m'.rest = [] := by
  constructor
  · intro h
    induction h with
    | nil hend => exact ⟨_, .nil _, hend⟩
    | cons _ hrun _ ih =>
      obtain ⟨m', hparts, hend⟩ := ih
      exact ⟨m', .cons hrun hparts, hend⟩
  · rintro ⟨m', h, hend⟩
    induction h with
    | nil => exact .nil hend
    | cons hrun _ ih => exact .cons (ne_nil_of_declaration hrun) hrun (ih hend)

namespace Stretch

theorem passes (h : Stretch filename m parts m') : ∃ cs, m.Passes cs m' := by
  induction h with
  | nil m => exact ⟨_, m.skipSpace_passes⟩
  | @cons m _ _ _ _ _ hrun _ ih =>
    obtain ⟨cs, -, hpass, -⟩ := advances.declaration.2 ⟨filename, m.skipSpace, []⟩
    rw [hrun] at hpass
    obtain ⟨ds, hothers⟩ := ih
    exact ⟨_, (m.skipSpace_passes.trans hpass).trans hothers⟩

theorem stops (h : Stretch filename m parts m') : Stops isBlank m'.rest := by
  induction h with
  | nil m => exact m.stops_skipSpace
  | cons _ _ ih => exact ih

end Stretch

/-! ### The order of the diagnostics -/

/-- A type definition records nothing. -/
theorem recorded_of_type {d : TypeDefinition} (h : ReadM.run declaration.run ⟨filename, m, []⟩ =
    (some (.type d), ⟨filename, m', recorded⟩)) : recorded = [] :=
  Terse.typeDefinition.recorded_eq (run_declaration_type h)

/-- A function records the definition begun by its name, and a bracket behind it. -/
theorem recorded_of_function {s : Signature} (hspace : Stops isBlank m.rest)
    (h : ReadM.run declaration.run ⟨filename, m, []⟩ =
      (some (.function s), ⟨filename, m', recorded⟩)) :
    ∃ gap more, (∀ c ∈ gap, isBlank c = true) ∧
      m.Passes (s.name.toList ++ (gap ++ ':' :: ':' :: more)) m' ∧ ∃ bracket : Option Diagnostic,
        recorded = (misreading filename m.place s.name gap).toList ++ bracket.toList ∧
        ∀ d ∈ bracket, d.kind ≠ .syntaxError ∧ m'.place.offset < d.location.place.offset ∧
          ∃ c ∈ m'.rest.head?, c = '[' ∨ c = '\x7b' := by
  obtain ⟨gap, more, r, -, hgap, hpass, rfl, -, hhalts⟩ := run_declaration_function hspace h
  refine ⟨gap, more, hgap, hpass, ?_⟩
  rcases hhalts with hrecorded | ⟨d, hrecorded, hkind, hlt, hbracket⟩
  · exact ⟨none, by simpa using hrecorded, by simp⟩
  · exact ⟨some d, by simpa using hrecorded, by simpa using ⟨hkind, hlt, hbracket⟩⟩

/-- A definition begun by a name is given up before the colons. -/
theorem offset_of_misreading {name : String} {gap more : List Char} {d : Diagnostic}
    (hpass : m.Passes (name.toList ++ (gap ++ ':' :: ':' :: more)) m')
    (hd : d ∈ misreading filename m.place name gap) :
    d.kind = .expectedTypeName ∧ m.place.offset < d.location.place.offset ∧
      d.location.place.offset < m'.place.offset := by
  obtain ⟨hkind, before, after, hname, hne, hlocation⟩ := location_of_misreading hd
  have hplace : m'.place = (m.place.afterAll before).afterAll (after ++ ':' :: ':' :: more) := by
    rw [hpass.2, ← Place.afterAll_append, ← List.append_assoc, hname, List.append_assoc]
  rw [hlocation, hplace]
  exact ⟨hkind, Place.offset_lt_offset_afterAll _ hne, Place.offset_lt_offset_afterAll _ (by simp)⟩

namespace Stretch

/-- No declaration begins with a bracket. -/
theorem eq_nil_of_bracket (h : Stretch filename m parts m')
    (hbracket : ∃ c ∈ m.rest.head?, c = '[' ∨ c = '\x7b') : parts = [] ∧ m'.rest ≠ [] := by
  obtain ⟨c, hc, hbracket⟩ := hbracket
  obtain ⟨more, hrest⟩ := List.head?_eq_some_iff.1 hc
  have hspace : m.skipSpace = m := by
    refine Mark.skipSpace_eq_self (hrest ▸ stops_cons.2 ?_)
    rcases hbracket with rfl | rfl <;> decide
  cases h with
  | nil =>
    rw [hspace, hrest]
    exact ⟨rfl, List.cons_ne_nil _ _⟩
  | cons hrun =>
    have hstop := stops_of_declaration m.stops_skipSpace hrun
    rw [hspace, hrest, stops_cons] at hstop
    rcases hbracket with rfl | rfl <;> cases hstop

/-- **The diagnostics of a stretch come in the order of the text.** -/
theorem pairwise (h : Stretch filename m parts m') :
    (parts.flatMap Prod.snd).Pairwise (·.location.place.offset < ·.location.place.offset) ∧
      ∀ d ∈ parts.flatMap Prod.snd,
        d.kind ≠ .syntaxError ∧ m.place.offset < d.location.place.offset := by
  induction h with
  | nil => simp
  | @cons m m' m'' d recorded parts hrun hothers ih =>
    have hspace := m.skipSpace_passes.offset_le
    cases d with
    | type d =>
      obtain ⟨cs, -, hpass, -⟩ := advances.declaration.2 ⟨filename, m.skipSpace, []⟩
      rw [hrun] at hpass
      obtain rfl := recorded_of_type hrun
      have hle := hspace.trans hpass.offset_le
      exact ⟨ih.1, fun d hd => ⟨(ih.2 d hd).1, hle.trans_lt (ih.2 d hd).2⟩⟩
    | function s =>
      obtain ⟨gap, more, -, hpass, bracket, rfl, hbracket⟩ :=
        recorded_of_function m.stops_skipSpace hrun
      -- What is recorded behind the signature is a bracket's or that of the others.
      have hbehind : (bracket.toList ++ parts.flatMap Prod.snd).Pairwise
            (·.location.place.offset < ·.location.place.offset) ∧
          ∀ d ∈ bracket.toList ++ parts.flatMap Prod.snd,
            d.kind ≠ .syntaxError ∧ m'.place.offset < d.location.place.offset := by
        cases bracket with
        | none => simpa using ih
        | some d =>
          obtain ⟨hkind, hlt, hopen⟩ := hbracket d rfl
          obtain ⟨rfl, -⟩ := hothers.eq_nil_of_bracket hopen
          simpa using ⟨hkind, hlt⟩
      rw [List.flatMap_cons, List.append_assoc, List.pairwise_append]
      refine ⟨⟨?_, hbehind.1, fun d hd d' hd' => ?_⟩, fun d hd => ?_⟩
      · cases misreading filename m.skipSpace.place s.name gap <;> simp
      · obtain ⟨-, -, hlt⟩ := offset_of_misreading hpass (Option.mem_toList.1 hd)
        exact hlt.trans (hbehind.2 d' hd').2
      · rcases List.mem_append.1 hd with hd | hd
        · obtain ⟨hkind, hlt, -⟩ := offset_of_misreading hpass (Option.mem_toList.1 hd)
          exact ⟨hkind ▸ nofun, hspace.trans_lt hlt⟩
        · obtain ⟨hkind, hlt⟩ := hbehind.2 d hd
          exact ⟨hkind, (hspace.trans hpass.offset_le).trans_lt hlt⟩

end Stretch

namespace Module

/-- A plain reader fails where the declarations end and the text does not. -/
theorem run_items_eq_error_iff {kept : List Diagnostic} {k : Nat} {e : Diagnostic}
    (hk : m.rest.length < k) :
    (ReadM.run (items kept k) ⟨filename, m, []⟩).1 = .error e ↔
      ∃ parts m' recorded, Stretch filename m parts m' ∧ m'.rest ≠ [] ∧
        ReadM.run declaration.run ⟨filename, m', []⟩ = (none, ⟨filename, m', recorded⟩) ∧
        e = (recorded ++ (kept ++ parts.flatMap Prod.snd)).headD
          ⟨.syntaxError, ⟨filename, m'.place⟩⟩ := by
  induction k generalizing m kept with
  | zero => omega
  | succ k ih =>
    rw [run_items_succ]
    by_cases hend : m.skipSpace.rest = []
    · rw [if_pos (List.isEmpty_iff.2 hend)]
      constructor
      · nofun
      · rintro ⟨parts, m', recorded, hparts, hmore, -⟩
        cases hparts with
        | nil => exact absurd hend hmore
        | cons hrun => exact absurd hend (ne_nil_of_declaration hrun)
    rw [if_neg (mt List.isEmpty_iff.1 hend)]
    rcases hrun : ReadM.run declaration.run ⟨filename, m.skipSpace, []⟩ with ⟨_ | d, r'⟩
    · -- The first declaration is missing.
      obtain ⟨-, new, rfl, -⟩ := run_declaration_none hrun
      constructor
      · intro h
        cases h
        exact ⟨[], _, _, .nil m, hend, hrun, by simp⟩
      · rintro ⟨parts, m', recorded, hparts, -, hrun', rfl⟩
        cases hparts with
        | nil =>
          rw [hrun] at hrun'
          cases hrun'
          simp
        | cons hsome => rw [hrun] at hsome; cases hsome
    · obtain ⟨filename', m₁, recorded⟩ := r'
      obtain rfl : filename' = filename := filename_of_declaration hrun
      have hk' : m₁.rest.length < k :=
        (length_lt_of_declaration_skipSpace hrun).trans_le (Nat.le_of_lt_succ hk)
      change (ReadM.run (items (kept ++ recorded) k) ⟨filename', m₁, []⟩).1.map _ = _ ↔ _
      constructor
      · intro h
        cases hitems : (ReadM.run (items (kept ++ recorded) k) ⟨filename', m₁, []⟩).1 with
        | ok others => rw [hitems] at h; cases h
        | error e' =>
          rw [hitems] at h
          cases h
          obtain ⟨parts, m', recorded', hparts, hmore, hnone, rfl⟩ := (ih hk').1 hitems
          exact ⟨_, m', recorded', .cons hrun hparts, hmore, hnone, by simp⟩
      · rintro ⟨parts, m', recorded', hparts, hmore, hnone, rfl⟩
        cases hparts with
        | nil => rw [hrun] at hnone; cases hnone
        | cons hsome hothers =>
          rw [hrun] at hsome
          cases hsome
          have hitems := (@ih m₁ (kept ++ recorded) hk').2
            ⟨_, m', recorded', hothers, hmore, hnone, by simp⟩
          rw [hitems, Except.map]

/-- **A text is refused where its declarations end and it does not.**  The reason is the first
diagnostic of the last attempt, or else the first one that a declaration recorded, or else that
there is no declaration. -/
theorem parse_eq_error_iff {text filename : String} {e : Diagnostic} :
    parse text filename = .error e ↔
      ∃ parts m recorded, Stretch filename (.start text) parts m ∧ m.rest ≠ [] ∧
        ReadM.run declaration.run ⟨filename, m, []⟩ = (none, ⟨filename, m, recorded⟩) ∧
        e = (recorded ++ parts.flatMap Prod.snd).headD ⟨.syntaxError, ⟨filename, m.place⟩⟩ := by
  have hitems := @run_items_eq_error_iff filename (.start text) [] _ e (Nat.lt_succ_self _)
  simp only [List.nil_append] at hitems
  rw [parse_eq_run, ← hitems]
  change (ReadM.run (items [] ((Mark.start text).rest.length + 1))
    ⟨filename, .start text, []⟩).1.map _ = _ ↔ _
  cases (ReadM.run (items [] ((Mark.start text).rest.length + 1))
    ⟨filename, .start text, []⟩).1 <;> simp [Except.map]

end Module

end DeclLang
