import DeclLang.Proofs.Module.Stretch

/-!
# The diagnostics of a module

A module that is accepted may have diagnostics all the same, since a declaration may be read where
another form was given up.  `Layout` tells them from the text and the declarations alone: a function
whose name begins with the keyword of a type definition has one, unless the rest of its name is a
type name (`misreading`), and there are no others (`Module.layout_of_parse`).

That a bracket was given up cannot show.  The signature ends before the bracket then, no declaration
begins there, and the text is refused.
-/

namespace DeclLang

open Grammar Text

/-- From the mark on the text is these declarations, and these are their diagnostics. -/
inductive Layout (filename : String) : Mark → List Declaration → List Diagnostic → Prop
  /-- Nothing is left but blanks. -/
  | nil {m : Mark} : m.skipSpace.rest = [] → Layout filename m [] []
  /-- A type definition has no diagnostic. -/
  | type {m m' : Mark} {d : TypeDefinition} {cs : List Char} {ds : List Declaration}
      {diagnostics : List Diagnostic} :
      m.skipSpace.Passes cs m' → Declaration.Spelled (.type d) (squeeze cs) →
      Layout filename m' ds diagnostics → Layout filename m (.type d :: ds) diagnostics
  /-- A function has one diagnostic or none, as its name says. -/
  | function {m m' : Mark} {s : Signature} {gap more : List Char} {ds : List Declaration}
      {diagnostics : List Diagnostic} :
      (∀ c ∈ gap, isBlank c = true) →
      m.skipSpace.Passes (s.name.toList ++ (gap ++ ':' :: ':' :: more)) m' →
      Declaration.Spelled (.function s)
        (squeeze (s.name.toList ++ (gap ++ ':' :: ':' :: more))) →
      Layout filename m' ds diagnostics →
      Layout filename m (.function s :: ds)
        ((misreading filename m.skipSpace.place s.name gap).toList ++ diagnostics)

variable {filename : String} {m m' : Mark} {ds : List Declaration}

/-- A text that is passed for a declaration spells it. -/
theorem spelled_of_declaration {d : Declaration} {r r' : Reading} {cs : List Char}
    (h : ReadM.run declaration.run r = (some d, r')) (hpass : r.mark.Passes cs r'.mark) :
    d.Spelled (squeeze cs) := by
  obtain ⟨w, hw, hsqueeze⟩ := Yields.declaration r d r' h
  rw [squeeze_of_passes hpass] at hsqueeze
  rwa [List.append_cancel_right hsqueeze]

/-- Declarations that reach the end of the text are laid out in it. -/
theorem Declares.layout {parts : List (Declaration × List Diagnostic)}
    (h : Declares filename m parts) :
    Layout filename m (parts.map Prod.fst) (parts.flatMap Prod.snd) := by
  induction h with
  | nil hend => exact .nil hend
  | @cons m m' d recorded parts _ hrun hothers ih =>
    cases d with
    | type d =>
      obtain ⟨cs, -, hpass, -⟩ := advances.declaration.2 ⟨filename, m.skipSpace, []⟩
      rw [hrun] at hpass
      obtain rfl := recorded_of_type hrun
      exact .type hpass (spelled_of_declaration hrun hpass) ih
    | function s =>
      obtain ⟨gap, more, hgap, hpass, bracket, rfl, hbracket⟩ :=
        recorded_of_function m.stops_skipSpace hrun
      have hspelled := spelled_of_declaration hrun hpass
      cases bracket with
      | none =>
        rw [List.flatMap_cons, Option.toList_none, List.append_nil]
        exact .function hgap hpass hspelled ih
      | some d =>
        obtain ⟨m'', hstretch, hend⟩ := declares_iff.1 hothers
        exact absurd hend (hstretch.eq_nil_of_bracket (hbracket d rfl).2.2).2

theorem Layout.kind_eq {diagnostics : List Diagnostic} (h : Layout filename m ds diagnostics) :
    ∀ d ∈ diagnostics, d.kind = .expectedTypeName := by
  induction h with
  | nil => simp
  | type _ _ _ ih => exact ih
  | function _ _ _ _ ih =>
    intro d hd
    rcases List.mem_append.1 hd with hd | hd
    · exact (location_of_misreading (Option.mem_toList.1 hd)).1
    · exact ih d hd

/-- Declarations that record nothing where they are have names that are not misread anywhere. -/
theorem Stretch.diagnostics_eq_nil {filename' : String} {n : Mark}
    {parts : List (Declaration × List Diagnostic)} {diagnostics : List Diagnostic}
    (h : Stretch filename m parts m') (hnil : parts.flatMap Prod.snd = [])
    (h' : Layout filename' n (parts.map Prod.fst) diagnostics) : diagnostics = [] := by
  induction h generalizing n diagnostics with
  | nil => cases h'; rfl
  | @cons m _ _ d recorded parts hrun _ ih =>
    rw [List.flatMap_cons, List.append_eq_nil_iff] at hnil
    obtain ⟨rfl, hnil⟩ := hnil
    cases d with
    | type d =>
      cases h' with
      | type _ _ hothers => exact ih hnil hothers
    | function s =>
      obtain ⟨gap, more, -, -, bracket, hrecorded, -⟩ :=
        recorded_of_function m.stops_skipSpace hrun
      have hname := Option.toList_eq_nil_iff.1 (List.append_eq_nil_iff.1 hrecorded.symm).1
      cases h' with
      | function _ _ _ hothers => rw [ih hnil hothers, misreading_eq_none hname]; rfl

namespace Module

/-- **The diagnostics of an accepted text are known from its functions.**  Each function whose name
is `type`, or begins so and goes on with anything but a capital letter, has one diagnostic.  It says
that a type name is missing, right behind these four letters, or before the colons if there is no
more of the name.  These are all diagnostics, and they are in the order of the text. -/
theorem layout_of_parse {text filename : String} {module : Module}
    (h : parse text filename = .ok module) :
    Layout filename (.start text) module.declarations module.diagnostics ∧
      module.diagnostics.Pairwise (·.location.place.offset < ·.location.place.offset) ∧
      ∀ d ∈ module.diagnostics, d.kind = .expectedTypeName := by
  obtain ⟨parts, hparts, rfl⟩ := parse_eq_ok_iff.1 h
  obtain ⟨m, hstretch, -⟩ := declares_iff.1 hparts
  exact ⟨hparts.layout, hstretch.pairwise.1, hparts.layout.kind_eq⟩

/-- Of these three functions the first and the last are misread. -/
theorem layout_of_parse_three_names :
    ∃ ds, parse "type\n:: [A]\ntypeA :: B\n typefoo :: ()" "f" = .ok ⟨"f", ds,
      [⟨.expectedTypeName, ⟨"f", ⟨5, 2, 1⟩⟩⟩, ⟨.expectedTypeName, ⟨"f", ⟨28, 4, 6⟩⟩⟩]⟩ ∧
      Layout "f" (.start "type\n:: [A]\ntypeA :: B\n typefoo :: ()") ds
        [⟨.expectedTypeName, ⟨"f", ⟨5, 2, 1⟩⟩⟩, ⟨.expectedTypeName, ⟨"f", ⟨28, 4, 6⟩⟩⟩] := by
  have h : parse "type\n:: [A]\ntypeA :: B\n typefoo :: ()" "f" = .ok ⟨"f",
      [.function ⟨"type", some [.array "A"], none⟩, .function ⟨"typeA", some [.plain "B"], none⟩,
        .function ⟨"typefoo", some [.unit], none⟩],
      [⟨.expectedTypeName, ⟨"f", ⟨5, 2, 1⟩⟩⟩, ⟨.expectedTypeName, ⟨"f", ⟨28, 4, 6⟩⟩⟩]⟩ := by
    decide +kernel
  exact ⟨_, h, (layout_of_parse h).1⟩

end Module

end DeclLang
