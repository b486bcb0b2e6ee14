import DeclLang.Proofs.Grammar.Diagnostics
import DeclLang.Proofs.Grammar.Outcome

/-!
# Names that begin with a keyword

The keyword of a type definition needs no blank behind it, so a definition is begun at every name
that begins with it, a function's too.  Such a definition is given up
(`run_typeDefinition_of_name`).  If the rest of the name is a type name then it gets as far as the
first colon of the signature and records nothing; otherwise it misses a type name behind the
keyword, and this diagnostic stays when the signature is read (`misreading`).

`run_declaration_function` and `run_declaration_none` say what a declaration records, whether it
is there or not.
-/

namespace DeclLang

namespace Grammar

open Text Scanner

variable {α : Type} {r r' : Reading}

/-! ### Definitions begun by the name of a function -/

/-- What a type definition records that is begun by the name of a function.  Behind the keyword
it finds the rest of that name, or the colons if there is no rest. -/
def misreading (filename : String) (p : Place) (name : String) (gap : List Char) :
    Option Diagnostic :=
  match name.toList.dropPrefix? "type".toList with
  | none => none
  | some [] => some ⟨.expectedTypeName, ⟨filename, p.afterAll ("type".toList ++ gap)⟩⟩
  | some (c :: _) =>
    if isTypeStart c then none else some ⟨.expectedTypeName, ⟨filename, p.afterAll "type".toList⟩⟩

/-- No member line begins before the end of the line. -/
theorem run_members_of_stops (h : Stops isBlank r.mark.rest) (block : Option Nat) (k : Nat) :
    ReadM.run (members block k).run r = (some [], r) := by
  cases k with
  | zero => rfl
  | succ k =>
    have hindent : ReadM.run indent.run r = (none, r) := by
      obtain ⟨r', hrun, -⟩ := Reads.indent_none_of_stops h r rfl
      rw [ReadM.run_indent] at hrun ⊢
      cases hfound : r.mark.indent? with
      | none => rfl
      | some found => rw [hfound] at hrun; cases hrun
    rw [members_succ, ReadM.run_next, ReadM.run_optional, ReadM.run_attempt, line, ReadM.run_next,
      hindent]
    rfl

/-- A type name alone, with a colon behind it, is no type definition. -/
theorem run_typeDefinition_body_of_colons {name : String} {m : Mark} {gap cs : List Char}
    (hgap : ∀ c ∈ gap, isBlank c = true) (hm : m.rest = gap ++ ':' :: ':' :: cs) :
    ∃ m', ReadM.run (do
        if let some target ← optional typeName then
          return .ofAlias { name, target }
        expect ":" .expectedColon
        match ← members none (← bound) with
        | [] => failure
        | members => return .ofAlgebraic { name, members } : OptionT ReadM TypeDefinition).run
      { r with mark := m } = (none, { r with mark := m' }) := by
  have hspace := Mark.skipSpace_eq hm hgap (stops_cons.2 (by decide))
  have hcolon := Mark.skipSpace_eq_self (m := m.skipSpace) m.stops_skipSpace
  have hpass : m.skipSpace.Passes ":".toList ⟨m.skipSpace.place.afterAll ":".toList, ':' :: cs⟩ :=
    Mark.passes_of_rest_eq (by rw [hspace]; rfl)
  have hname : m.skipSpace.word? isTypeStart isNameChar = none := by
    rw [Mark.word?_eq_none_iff, hspace]
    exact stops_cons.2 (by decide)
  refine ⟨⟨m.skipSpace.place.afterAll ":".toList, ':' :: cs⟩, ?_⟩
  rw [ReadM.run_next, ReadM.run_optional, ReadM.run_typeName, hname]
  simp only
  rw [ReadM.run_next, expect, ReadM.run_orElse, ReadM.run_keyword, hcolon,
    Mark.literal?_eq_some_iff.2 hpass]
  simp only
  rw [ReadM.run_next]
  change ReadM.run (members none _ >>= fun ms => _).run _ = _
  rw [ReadM.run_next, run_members_of_stops (stops_cons.2 (by decide))]
  rfl

/-- A name ends before the colons, whatever blanks come between. -/
theorem stops_colons {gap : List Char} (hgap : ∀ c ∈ gap, isBlank c = true) (cs : List Char) :
    Stops isNameChar (gap ++ ':' :: cs) := by
  cases gap with
  | nil => exact stops_cons.2 (by decide)
  | cons c gap =>
    refine stops_cons.2 (Bool.eq_false_iff.2 fun hc => ?_)
    have hblank := hgap c List.mem_cons_self
    rw [isBlank_eq_false_of_isNameChar hc] at hblank
    cases hblank

/-- A word at the beginning of a name and what is behind it is at the beginning of the name. -/
theorem prefix_of_prefix_append_stops {word cs more : List Char}
    (hword : ∀ c ∈ word, isNameChar c = true) (hmore : Stops isNameChar more)
    (h : word <+: cs ++ more) : word <+: cs := by
  cases more with
  | nil => rwa [List.append_nil] at h
  | cons c more =>
    refine prefix_of_prefix_append_cons h fun hc => ?_
    have hname := hword c hc
    rw [stops_cons.1 hmore] at hname
    cases hname

/-- A form that is given up leaves what it has recorded. -/
theorem run_attempt_none {x : OptionT ReadM α} {new : List Diagnostic}
    (h : ∃ m, ReadM.run x.run r = (none, ⟨r.filename, m, r.recorded ++ new⟩)) :
    ReadM.run (attempt x).run r = (none, { r with recorded := r.recorded ++ new }) := by
  obtain ⟨m, hrun⟩ := h
  rw [ReadM.run_attempt, hrun]

/-- **A definition begun by the name of a function is given up.**  What is left of the name is no
type name, or it is one and no member line comes behind the colon. -/
theorem run_typeDefinition_of_name {name : String} {gap cs : List Char}
    (hname : isWord isVariableStart name = true) (hgap : ∀ c ∈ gap, isBlank c = true)
    (h : r.mark.rest = name.toList ++ (gap ++ ':' :: ':' :: cs)) :
    ReadM.run typeDefinition.run r = (none, { r with
      recorded := r.recorded ++ (misreading r.filename r.mark.place name gap).toList }) := by
  have hspace : Stops isBlank r.mark.rest := h ▸ stops_identifier hname _
  rw [typeDefinition]
  refine run_attempt_none ?_
  rw [ReadM.run_next, ReadM.run_keyword, Mark.skipSpace_eq_self hspace, misreading]
  rcases hdrop : name.toList.dropPrefix? "type".toList with _ | more
  · have hprefix : ¬ "type".toList <+: r.mark.rest := by
      rw [h]
      intro hprefix
      obtain ⟨more, hmore⟩ :=
        prefix_of_prefix_append_stops (List.all_eq_true.1 (by decide))
          (stops_colons hgap (':' :: cs)) hprefix
      rw [List.dropPrefix?_eq_some_iff.2 ⟨_, hmore.symm, beq_self_eq_true _⟩] at hdrop
      cases hdrop
    rw [Mark.literal?_eq_none_iff.2 hprefix]
    exact ⟨r.mark, by simp⟩
  -- The keyword is passed, and the reader is behind it.
  obtain ⟨word, hword, heq⟩ := List.dropPrefix?_eq_some_iff.1 hdrop
  obtain rfl : word = "type".toList := eq_of_beq heq
  have hchars : ∀ c ∈ more, isNameChar c = true := fun c hc =>
    isNameChar_of_mem_word (fun _ => isNameChar_of_isVariableStart) hname c
      (hword ▸ List.mem_append_right _ hc)
  obtain ⟨m, hpass, hm⟩ : ∃ m, r.mark.Passes "type".toList m ∧
      m.rest = more ++ (gap ++ ':' :: ':' :: cs) :=
    ⟨_, Mark.passes_of_rest_eq (by rw [h, hword, List.append_assoc]), rfl⟩
  rw [Mark.literal?_eq_some_iff.2 hpass]
  simp only
  rw [ReadM.run_next, ReadM.run_orElse, ReadM.run_typeName]
  cases more with
  | nil =>
    have hcolons : Stops isBlank (':' :: ':' :: cs) := stops_cons.2 (by decide)
    have hnone : Stops isTypeStart (':' :: ':' :: cs) := stops_cons.2 (by decide)
    rw [List.nil_append] at hm
    rw [Mark.skipSpace_eq hm hgap hcolons, Mark.word?_eq_none_iff.2 hnone, Place.afterAll_append,
      hpass.2]
    exact ⟨_, rfl⟩
  | cons c others =>
    have hself : Stops isBlank m.rest :=
      hm ▸ stops_cons.2 (isBlank_eq_false_of_isNameChar (hchars c List.mem_cons_self))
    rw [Mark.skipSpace_eq_self hself]
    by_cases hc : isTypeStart c = true
    · -- It is taken for the name of the type and the first colon for that of a block.
      rw [Mark.word?_eq_some_iff.2 ⟨c, others, rfl, hc, fun d hd =>
        hchars d (List.mem_cons_of_mem c hd), stops_colons hgap (':' :: cs),
        Mark.passes_of_rest_eq hm⟩]
      simp only [hc, ↓reduceIte, Option.toList_none, List.append_nil]
      exact run_typeDefinition_body_of_colons hgap rfl
    · have hnone : Stops isTypeStart m.rest := hm ▸ stops_cons.2 (Bool.not_eq_true _ ▸ hc)
      rw [Mark.word?_eq_none_iff.2 hnone, ← hpass.2]
      simp only [hc]
      exact ⟨_, rfl⟩

theorem Reads.typeDefinition_of_name {name : String} {gap cs : List Char}
    (hname : isWord isVariableStart name = true) (hgap : ∀ c ∈ gap, isBlank c = true) :
    Reads typeDefinition (name.toList ++ (gap ++ ':' :: ':' :: cs)) none
      (name.toList ++ (gap ++ ':' :: ':' :: cs)) :=
  fun _ hr => ⟨_, run_typeDefinition_of_name hname hgap hr, hr⟩

/-- Whether something is recorded depends on the name alone. -/
theorem misreading_eq_none {filename filename' name : String} {p p' : Place} {gap gap' : List Char}
    (h : misreading filename p name gap = none) : misreading filename' p' name gap' = none := by
  unfold misreading at h ⊢
  split at h
  · rfl
  · cases h
  · split at h
    case isTrue hc => simp [hc]
    case isFalse => cases h

/-- What is recorded is located inside the name or right behind it, and the blanks. -/
theorem location_of_misreading {filename name : String} {p : Place} {gap : List Char}
    {d : Diagnostic} (h : d ∈ misreading filename p name gap) :
    d.kind = .expectedTypeName ∧ ∃ before after, name.toList ++ gap = before ++ after ∧
      before ≠ [] ∧ d.location = ⟨filename, p.afterAll before⟩ := by
  unfold misreading at h
  split at h
  case h_1 => cases h
  case h_2 hname =>
    obtain ⟨word, hword, heq⟩ := List.dropPrefix?_eq_some_iff.1 hname
    obtain rfl : word = "type".toList := eq_of_beq heq
    cases h
    exact ⟨rfl, "type".toList ++ gap, [], by rw [hword]; simp, by simp, rfl⟩
  case h_3 c more hname =>
    obtain ⟨word, hword, heq⟩ := List.dropPrefix?_eq_some_iff.1 hname
    obtain rfl : word = "type".toList := eq_of_beq heq
    split at h
    case isTrue => cases h
    case isFalse =>
      cases h
      exact ⟨rfl, "type".toList, c :: more ++ gap, by rw [hword, List.append_assoc], by simp, rfl⟩

/-! ### Declarations -/

/-- A type definition that is refused is refused for one reason at most. -/
theorem run_typeDefinition_none (h : ReadM.run typeDefinition.run r = (none, r')) :
    ∃ new : Option Diagnostic, r' = { r with recorded := r.recorded ++ new.toList } ∧
      ∀ d ∈ new, d.kind ≠ .syntaxError := by
  obtain ⟨new, hrecorded, hkind, -⟩ := Terse.typeDefinition r
  obtain ⟨-, -, -, hname, -⟩ := advances.typeDefinition.2 r
  have hmark : r'.mark = r.mark := by
    rw [typeDefinition, ReadM.run_attempt] at h
    split at h
    · cases h
    · exact congrArg (fun p => p.2.mark) h.symm
  rw [h] at hrecorded hname
  refine ⟨new, ?_, hkind⟩
  rw [← hrecorded, ← hname, ← hmark]

/-- A declaration is a type definition, or else a signature at the same mark. -/
theorem run_declaration (r : Reading) :
    ReadM.run declaration.run r = match ReadM.run typeDefinition.run r with
      | (some d, r') => (some (.type d), r')
      | (none, r') => ((ReadM.run signature.run r').1.map .function,
        (ReadM.run signature.run r').2) := by
  rw [declaration, ReadM.run_orElse, ReadM.run_map]
  rcases ReadM.run typeDefinition.run r with ⟨_ | d, r'⟩
  · exact ReadM.run_map r' Declaration.function signature
  · rfl

/-- **Where there is no declaration, nothing is recorded but why there is no type definition.** -/
theorem run_declaration_none (h : ReadM.run declaration.run r = (none, r')) :
    ReadM.run typeDefinition.run r = (none, r') ∧ ∃ new : Option Diagnostic,
      r' = { r with recorded := r.recorded ++ new.toList } ∧ ∀ d ∈ new, d.kind ≠ .syntaxError := by
  rw [run_declaration] at h
  rcases hrun : ReadM.run typeDefinition.run r with ⟨_ | d, r₁⟩ <;> rw [hrun] at h
  · simp only at h
    rcases run_signature r₁ with hnone | ⟨s, r₂, gap, more, hsome, -⟩
    · rw [hnone] at h
      cases h
      exact ⟨rfl, run_typeDefinition_none hrun⟩
    · rw [hsome] at h
      cases h
  · cases h

theorem run_declaration_type {d : TypeDefinition}
    (h : ReadM.run declaration.run r = (some (.type d), r')) :
    ReadM.run typeDefinition.run r = (some d, r') := by
  rw [run_declaration] at h
  rcases hrun : ReadM.run typeDefinition.run r with ⟨_ | d', r₁⟩ <;> rw [hrun] at h
  · have hkind := congrArg Prod.fst h
    simp at hkind
  · cases h
    rfl

/-- **Where there is a signature, a type definition was begun by its name.**  What that recorded
stays, and what a bracket behind the signature may record comes after it. -/
theorem run_declaration_function {s : Signature} (hspace : Stops isBlank r.mark.rest)
    (h : ReadM.run declaration.run r = (some (.function s), r')) :
    ∃ gap more r₁, isWord isVariableStart s.name = true ∧ (∀ c ∈ gap, isBlank c = true) ∧
      r.mark.Passes (s.name.toList ++ (gap ++ ':' :: ':' :: more)) r'.mark ∧
      r₁ = { r with
        recorded := r.recorded ++ (misreading r.filename r.mark.place s.name gap).toList } ∧
      ReadM.run signature.run r₁ = (some s, r') ∧ Halts r₁ r' := by
  rw [run_declaration] at h
  rcases hrun : ReadM.run typeDefinition.run r with ⟨_ | d, r₁⟩ <;> rw [hrun] at h
  · obtain ⟨new, hr₁, -⟩ := run_typeDefinition_none hrun
    simp only at h
    rcases run_signature r₁ with hnone | ⟨s', r₂, gap, more, hsome, hname, hgap, hpass, hhalts⟩
    · rw [hnone] at h
      cases h
    · rw [hsome] at h
      cases h
      rw [hr₁, Mark.skipSpace_eq_self hspace] at hpass
      have hrest : r.mark.rest =
          s.name.toList ++ (gap ++ ':' :: ':' :: (more ++ r₂.mark.rest)) := by
        rw [hpass.1]
        simp
      rw [run_typeDefinition_of_name hname hgap hrest] at hrun
      cases hrun
      exact ⟨gap, more, _, hname, hgap, hpass, rfl, hsome, hhalts⟩
  · cases h

/-- No declaration begins like a blank, a type or a sign. -/
theorem stops_of_declaration {d : Declaration} (hspace : Stops isBlank r.mark.rest)
    (h : ReadM.run declaration.run r = (some d, r')) :
    Stops (fun c => !isVariableStart c) r.mark.rest := by
  cases d with
  | type d =>
    by_contra hstop
    have hprefix : ¬ "type".toList <+: r.mark.rest := by
      rintro ⟨rest, hrest⟩
      exact hstop (hrest ▸ stops_cons.2 (by decide))
    have hrun := run_declaration_type h
    rw [typeDefinition, run_attempt_of_absent hspace hprefix] at hrun
    cases hrun
  | function s =>
    obtain ⟨gap, more, -, hname, -, hpass, -⟩ := run_declaration_function hspace h
    rw [hpass.1, List.append_assoc]
    exact stops_word hname (fun c hc => by rw [hc]; rfl) _

end Grammar

end DeclLang
