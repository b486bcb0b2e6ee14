import DeclLang.Proofs.Grammar.Deconstruction
import DeclLang.Proofs.Grammar.Diagnostics

/-!
# Parentheses that are not closed

A nested deconstructor is tried before each variable, and what it records stays recorded when it is
given up.  An outer deconstructor cannot make up for that.  The nested attempt has recorded
something only if it began with a parenthesis and the name of a type, and going back it leaves the
reader before that parenthesis.  No variable begins there, so the elements end, and there is no
closing parenthesis either.  So the outer deconstructor fails in turn, and it records that before
all that the nested one has recorded (`Unwinds.deconstructorWithin`, by induction on the depth).

So a deconstructor that is returned has recorded nothing, at any depth.  One that is refused has
recorded the parentheses that are not closed, from the innermost to the outermost, and it has
recorded something just if it was begun (`Parser.Reached.recorded_of_deconstructor`).
-/

namespace DeclLang

open Text

/-- The text begins as deconstructors do, with a parenthesis and the name of a type. -/
def Deconstructor.Begins (cs : List Char) : Prop :=
  ∃ (gap gap' : List Char) (name : String) (more : List Char), Gap gap ∧ Gap gap' ∧
    isWord isTypeStart name = true ∧ cs = gap ++ '(' :: (gap' ++ (name.toList ++ more))

namespace Grammar

open Scanner Deconstructor

/-! ### Beginnings -/

/-- A deconstructor begins at a mark if its first two tokens are there. -/
theorem begins_iff {m : Mark} : Begins m.rest ↔ ∃ m' found,
    m.skipSpace.literal? "(".toList = some m' ∧
      m'.skipSpace.word? isTypeStart isNameChar = some found := by
  constructor
  · rintro ⟨gap, gap', name, more, hgap, hgap', hname, hrest⟩
    have hopen : m.skipSpace.rest = "(".toList ++ (gap' ++ (name.toList ++ more)) := by
      rw [Mark.skipSpace_eq hrest hgap (stops_cons.2 (by decide))]
      rfl
    have hpass := Mark.passes_of_rest_eq hopen
    generalize Mark.mk (m.skipSpace.place.afterAll "(".toList) _ = m' at hpass
    have hm' : m'.rest = gap' ++ (name.toList ++ more) :=
      List.append_cancel_left (hpass.1.symm.trans hopen)
    have hstart : ¬ Stops isTypeStart m'.skipSpace.rest := by
      obtain ⟨c, cs, rfl, hc, -⟩ := isWord_iff.1 hname
      rw [Mark.skipSpace_eq hm' hgap' (stops_typeName hname more), String.toList_ofList,
        List.cons_append, stops_cons, hc]
      decide
    obtain ⟨found, hfound⟩ := Option.ne_none_iff_exists'.1 (mt Mark.word?_eq_none_iff.1 hstart)
    exact ⟨m', found, Mark.literal?_eq_some_iff.2 hpass, hfound⟩
  · rintro ⟨m', ⟨name, m''⟩, hopen, hname⟩
    obtain ⟨c, cs, rfl, -, -, -, hpass⟩ := Mark.word?_eq_some_iff.1 hname
    refine ⟨_, _, String.ofList (c :: cs), m''.rest, m.gap_skipSpace, m'.gap_skipSpace,
      (Mark.isWord_of_word? hname).1, ?_⟩
    rw [String.toList_ofList, ← hpass.1, ← m'.skipSpace_passes.1]
    exact (m.skipSpace_passes.trans (Mark.literal?_eq_some_iff.1 hopen)).1.trans (by simp)

theorem prefix_of_begins {m : Mark} (h : Begins m.rest) : "(".toList <+: m.skipSpace.rest := by
  obtain ⟨m', -, hopen, -⟩ := begins_iff.1 h
  exact ⟨m'.rest, (Mark.literal?_eq_some_iff.1 hopen).1.symm⟩

/-! ### Reports -/

/-- The diagnostics say that parentheses are not closed, the later ones at smaller offsets, and all
of them behind the given offset. -/
structure Unclosed (offset : Nat) (ds : List Diagnostic) : Prop where
  kind : ∀ d ∈ ds, d.kind = .expectedCloseParen
  beyond : ∀ d ∈ ds, offset < d.location.place.offset
  outward : ds.Pairwise fun d d' => d'.location.place.offset < d.location.place.offset

/-- Whatever two diagnostics that meet have in common, two lists of them have in common. -/
theorem map_eq_of_meets {α : Type} (f : Diagnostic → α) (hf : ∀ {d d'}, d.Meets d' → f d' = f d)
    {ds ds' : List Diagnostic} (h : List.Forall₂ Diagnostic.Meets ds ds') :
    ds'.map f = ds.map f := by
  induction h with
  | nil => rfl
  | cons hd _ ih => rw [List.map_cons, List.map_cons, hf hd, ih]

namespace Unclosed

variable {offset offset' : Nat} {ds : List Diagnostic}

theorem nil (offset : Nat) : Unclosed offset [] := ⟨by simp, by simp, .nil⟩

/-- The outer parenthesis is reported at the offset that all inner ones are behind. -/
theorem concat (h : Unclosed offset ds) {d : Diagnostic} (hkind : d.kind = .expectedCloseParen)
    (hoffset : d.location.place.offset = offset) (hlt : offset' < offset) :
    Unclosed offset' (ds ++ [d]) where
  kind e he := by
    rcases List.mem_append.1 he with he | he
    · exact h.kind e he
    · rw [List.mem_singleton.1 he, hkind]
  beyond e he := by
    rcases List.mem_append.1 he with he | he
    · exact hlt.trans (h.beyond e he)
    · rwa [List.mem_singleton.1 he, hoffset]
  outward := by
    refine List.pairwise_append.2 ⟨h.outward, List.pairwise_singleton _ _, fun e he e' he' => ?_⟩
    rw [List.mem_singleton.1 he', hoffset]
    exact h.beyond e he

/-- The same reports, with lines and columns counted otherwise. -/
theorem meets (h : Unclosed offset ds) {ds' : List Diagnostic}
    (hmeets : List.Forall₂ Diagnostic.Meets ds ds') : Unclosed offset ds' := by
  have hkinds := map_eq_of_meets Diagnostic.kind (·.kind) hmeets
  have hoffsets := map_eq_of_meets (·.location.place.offset) (·.offset) hmeets
  refine ⟨?_, ?_, ?_⟩
  · rw [← List.forall_mem_map (f := Diagnostic.kind) (P := (· = .expectedCloseParen)), hkinds,
      List.forall_mem_map]
    exact h.kind
  · rw [← List.forall_mem_map (f := fun d : Diagnostic => d.location.place.offset)
      (P := (offset < ·)), hoffsets, List.forall_mem_map]
    exact h.beyond
  · rw [← List.pairwise_map (R := fun o o' => o' < o), hoffsets, List.pairwise_map]
    exact h.outward

end Unclosed

/-! ### One level -/

/-- On the way from one reader to the other, parentheses that are not closed were recorded, or
nothing.  The other reader is before the outermost of them then. -/
structure Unwound (r r' : Reading) (new : List Diagnostic) : Prop where
  recorded : r'.recorded = r.recorded ++ new
  unclosed : Unclosed r'.mark.skipSpace.place.offset new
  begins : new ≠ [] → Begins r'.mark.rest

/-- The rule returns and has recorded nothing, or it fails before a parenthesis that is not closed
at most. -/
def Unwinds {α : Type} (x : OptionT ReadM α) : Prop :=
  ∀ {r found r'}, ReadM.run x.run r = (found, r') →
    ∃ new, Unwound r r' new ∧ (found.isSome = true → new = [])

section Elements

variable {nested : OptionT ReadM Deconstructor} {index k : Nat} {r r₁ r' : Reading}

theorem Unwound.nil (h : r'.recorded = r.recorded) : Unwound r r' [] :=
  ⟨by rw [h, List.append_nil], .nil _, nofun⟩

theorem begins_skipSpace {m : Mark} : Begins m.skipSpace.rest ↔ Begins m.rest := by
  rw [begins_iff, begins_iff, Mark.skipSpace_skipSpace]

theorem Unwinds.element (h : Unwinds nested) (index : Nat) :
    Unwinds (toElement <$> nested <|> Element.binding index <$> identifier) := by
  intro r found r' hrun
  rcases hnested : ReadM.run nested.run r with ⟨_ | d, r₁⟩ <;>
    obtain ⟨new, hunwound, hquiet⟩ := h hnested <;>
    rw [ReadM.run_orElse, ReadM.run_map, hnested] at hrun
  · -- The nested attempt has failed, and a variable is tried.
    simp only [Option.map_none] at hrun
    rw [ReadM.run_map, ReadM.run_identifier] at hrun
    cases hname : r₁.mark.skipSpace.word? isVariableStart isNameChar with
    | none =>
      rw [hname] at hrun
      cases hrun
      refine ⟨new, ⟨hunwound.recorded, ?_, fun hne => begins_skipSpace.2 (hunwound.begins hne)⟩,
        nofun⟩
      simpa only [Mark.skipSpace_skipSpace] using hunwound.unclosed
    | some found =>
      rw [hname] at hrun
      cases hrun
      -- Where a variable begins no parenthesis does, so the attempt has recorded nothing.
      obtain rfl : new = [] := by
        by_contra hne
        obtain ⟨more, hrest⟩ := prefix_of_begins (hunwound.begins hne)
        have hstart : Stops isVariableStart r₁.mark.skipSpace.rest :=
          hrest ▸ stops_cons.2 (by decide)
        rw [Mark.word?_eq_none_iff.2 hstart] at hname
        cases hname
      exact ⟨[], .nil (by simpa using hunwound.recorded), fun _ => rfl⟩
  · obtain rfl : new = [] := hquiet rfl
    cases hrun
    exact ⟨[], hunwound, fun _ => rfl⟩

/-- The elements are all those before a parenthesis that is not closed. -/
theorem Unwinds.elements (h : Unwinds nested) (index k : Nat) (r : Reading) :
    ∃ es r' new, ReadM.run (Grammar.elements nested index k).run r = (some es, r') ∧
      Unwound r r' new := by
  induction k generalizing index r with
  | zero => exact ⟨[], r, [], rfl, .nil rfl⟩
  | succ k ih =>
    rcases helement : ReadM.run (toElement <$> nested <|>
      Element.binding index <$> identifier).run r with ⟨_ | e, r₁⟩ <;>
      obtain ⟨new, hunwound, hquiet⟩ := h.element index helement <;>
      rw [elements_succ, ReadM.run_next, ReadM.run_optional, helement]
    · exact ⟨[], r₁, new, rfl, hunwound⟩
    · obtain rfl : new = [] := hquiet rfl
      obtain ⟨es, r', new, hmore, hunwound'⟩ := ih (index + 1) r₁
      refine ⟨e :: es, r', new, ?_, ?_, hunwound'.unclosed, hunwound'.begins⟩
      · simp only
        rw [ReadM.run_next, hmore]
        rfl
      · rw [hunwound'.recorded, hunwound.recorded, List.append_nil]

end Elements

/-- A deconstructor that is not begun leaves no trace. -/
theorem run_deconstructorWithin_of_not_begins {r : Reading} (h : ¬ Begins r.mark.rest) (k : Nat) :
    ReadM.run (deconstructorWithin (k + 1)).run r = (none, r) := by
  rw [deconstructorWithin_succ, ReadM.run_attempt, ReadM.run_next, ReadM.run_keyword]
  cases hopen : r.mark.skipSpace.literal? "(".toList with
  | none => rfl
  | some m =>
    simp only
    rw [ReadM.run_next, ReadM.run_typeName]
    cases hname : m.skipSpace.word? isTypeStart isNameChar with
    | none => rfl
    | some name => exact absurd (begins_iff.2 ⟨m, name, hopen, hname⟩) h

/-- One level more.  A deconstructor that is begun and fails has recorded that. -/
theorem Unwinds.run_deconstructorWithin {k : Nat} (h : Unwinds (deconstructorWithin k))
    {r r' : Reading} {found : Option Deconstructor}
    (hrun : ReadM.run (deconstructorWithin (k + 1)).run r = (found, r')) :
    ∃ new, Unwound r r' new ∧ (found.isSome = true → new = []) ∧
      (found = none → Begins r.mark.rest → new ≠ []) := by
  by_cases hbegins : Begins r.mark.rest
  swap
  · rw [run_deconstructorWithin_of_not_begins hbegins] at hrun
    cases hrun
    exact ⟨[], .nil rfl, fun _ => rfl, fun _ h => absurd h hbegins⟩
  obtain ⟨m, name, hopen, hname⟩ := begins_iff.1 hbegins
  obtain ⟨es, r₁, new, helements, hunwound⟩ := h.elements 0 (k + 1) { r with mark := name.2 }
  rw [deconstructorWithin_succ, ReadM.run_attempt, ReadM.run_next, ReadM.run_keyword, hopen] at hrun
  simp only at hrun
  rw [ReadM.run_next, ReadM.run_typeName, hname] at hrun
  simp only at hrun
  rw [ReadM.run_next, helements] at hrun
  simp only at hrun
  rw [ReadM.run_next, expect, ReadM.run_orElse, ReadM.run_keyword] at hrun
  cases hclose : r₁.mark.skipSpace.literal? ")".toList with
  | some m' =>
    -- No parenthesis opens where one closes.
    obtain rfl : new = [] := by
      by_contra hne
      obtain ⟨more, hrest⟩ := prefix_of_begins (hunwound.begins hne)
      have hpass := Mark.literal?_eq_some_iff.1 hclose
      exact absurd (List.head_eq_of_cons_eq (hrest.trans hpass.1)) (by decide)
    rw [hclose] at hrun
    cases hrun
    exact ⟨[], .nil (by simpa using hunwound.recorded), fun _ => rfl, by simp⟩
  | none =>
    have hlt : r.mark.skipSpace.place.offset < r₁.mark.skipSpace.place.offset := by
      obtain ⟨c, cs, -, -, -, -, hpass⟩ := Mark.word?_eq_some_iff.1 hname
      obtain ⟨body, -, hbody, -⟩ := (advances.elements (advances.deconstructorWithin k) 0
        (k + 1)).2 { r with mark := name.2 }
      rw [helements] at hbody
      calc r.mark.skipSpace.place.offset
        _ < m.place.offset := (Mark.literal?_eq_some_iff.1 hopen).offset_lt (by decide)
        _ ≤ name.2.place.offset := (m.skipSpace_passes.trans hpass).offset_le
        _ ≤ r₁.mark.skipSpace.place.offset := (hbody.trans r₁.mark.skipSpace_passes).offset_le
    rw [hclose] at hrun
    cases hrun
    refine ⟨new ++ [⟨.expectedCloseParen, ⟨r₁.filename, r₁.mark.skipSpace.place⟩⟩],
      ⟨?_, hunwound.unclosed.concat rfl rfl hlt, fun _ => hbegins⟩, by simp, by simp⟩
    rw [← List.append_assoc, ← hunwound.recorded]

theorem Unwinds.deconstructorWithin (k : Nat) : Unwinds (deconstructorWithin k) := by
  induction k with
  | zero =>
    intro r found r' hrun
    cases hrun
    exact ⟨[], .nil rfl, fun _ => rfl⟩
  | succ k ih =>
    intro r found r' hrun
    obtain ⟨new, hunwound, hquiet, -⟩ := ih.run_deconstructorWithin hrun
    exact ⟨new, hunwound, hquiet⟩

/-! ### The rule -/

theorem unwound_of_deconstructor {r r' : Reading} {found : Option Deconstructor}
    (hrun : ReadM.run deconstructor.run r = (found, r')) :
    ∃ new, Unwound r r' new ∧ (found.isSome = true → new = []) ∧
      (found = none → (new ≠ [] ↔ Begins r.mark.rest)) := by
  rw [run_deconstructor_eq] at hrun
  obtain ⟨new, hunwound, hquiet, hbegins⟩ :=
    Unwinds.run_deconstructorWithin (Unwinds.deconstructorWithin _) hrun
  refine ⟨new, hunwound, hquiet, fun hnone => ⟨fun hne => ?_, hbegins hnone⟩⟩
  subst hnone
  have hmark : r'.mark = r.mark := mark_of_attempt_none hrun
  exact hmark ▸ hunwound.begins hne

/-- **Diagnostics of deconstructors follow the open parentheses.**  Whatever a parser has seen
before and wherever its cursor is, a deconstructor that it returns has recorded nothing, at any
depth.  If it returns none, then all it has recorded are parentheses that are not closed, at offsets
that decrease from the innermost to the outermost, and it has recorded one just if a parenthesis and
the name of a type come next. -/
theorem Parser.Reached.recorded_of_deconstructor {parser : Parser} (h : parser.Reached)
    {c : Cursor} (hc : c.mark.Fits c.source.text) :
    ∃ result after new, parser.run c deconstructor = .ok (result, after) ∧
      after.parser.recorded = parser.recorded ++ new ∧
      (result.isSome = true → new = []) ∧
      (result = none → (∀ d ∈ new, d.kind = .expectedCloseParen) ∧
        (new.Pairwise fun d d' => d'.location.place.offset < d.location.place.offset) ∧
          (new ≠ [] ↔ Begins c.mark.rest)) := by
  obtain ⟨after, hrun, hafter⟩ := h.run_call hc .deconstructor
  rcases hread : Call.deconstructor.reading c with ⟨result, r'⟩
  rw [hread] at hrun hafter
  obtain ⟨read, hunwound, hquiet, hbegins⟩ := unwound_of_deconstructor hread
  obtain ⟨new, hrecorded, hmeets⟩ := hafter.recorded
  -- The reader has recorded the same as the parser, but for lines and columns.
  rw [hunwound.recorded, List.nil_append] at hmeets
  have hnil : new = [] ↔ read = [] := by
    rw [← List.length_eq_zero_iff, ← hmeets.length_eq, List.length_eq_zero_iff]
  have hunclosed := hunwound.unclosed.meets hmeets
  exact ⟨result, after, new, hrun, hrecorded, fun hsome => hnil.2 (hquiet hsome),
    fun hnone => ⟨hunclosed.kind, hunclosed.outward, (not_congr hnil).trans (hbegins hnone)⟩⟩

/-- Three parentheses are open, one in another, and a parser that has seen the first of them
records all three: the innermost where the text ends, the others where the next one opens. -/
theorem Parser.Reached.recorded_of_deconstructor_nested : ∃ (parser : Parser) (c : Cursor),
    parser.Reached ∧ c.mark.Fits c.source.text ∧ c.mark.rest = "(A (B c (C d".toList ∧
    parser.memo.size = 1 ∧ ∃ after new, parser.run c deconstructor = .ok (none, after) ∧
      after.parser.recorded = parser.recorded ++ new ∧
      (∀ d ∈ new, d.kind = .expectedCloseParen) ∧
      new.map (·.location.place.offset) = [12, 8, 3] ∧ Begins c.mark.rest := by
  have hc := Mark.Fits.start "(A (B c (C d"
  obtain ⟨seen, hseen, -⟩ :=
    Reached.run_call (c := .start ⟨0, "(A (B c (C d"⟩ "f") .empty hc (.keyword "(")
  have h := Reached.call _ _ .empty hc hseen
  obtain ⟨result, after, new, hrun, hrecorded, -, hnone⟩ :=
    recorded_of_deconstructor (c := .start ⟨0, "(A (B c (C d"⟩ "f") h hc
  have heval : ((Parser.empty.run (.start ⟨0, "(A (B c (C d"⟩ "f")
      (Call.keyword "(").rule).toOption.bind fun s => (s.2.parser.run
        (.start ⟨0, "(A (B c (C d"⟩ "f") deconstructor).toOption.map fun t =>
          (s.2.parser.memo.size, s.2.parser.recorded, t.1.isNone,
            t.2.parser.recorded.map (·.location.place.offset))) =
      some (1, [], true, [12, 8, 3]) := by decide +kernel
  rw [hseen] at heval
  simp only [Except.toOption, Option.bind_some] at heval
  rw [hrun] at heval
  simp only [Option.map_some, Option.some.injEq, Prod.mk.injEq, Option.isNone_iff_eq_none] at heval
  obtain ⟨hsize, hbefore, rfl, hoffsets⟩ := heval
  obtain ⟨hkind, -, hbegins⟩ := hnone rfl
  rw [hrecorded, hbefore, List.nil_append] at hoffsets
  refine ⟨_, _, h, hc, rfl, hsize, after, new, hrun, hrecorded, hkind, hoffsets, hbegins.1 ?_⟩
  rintro rfl
  cases hoffsets

end Grammar

end DeclLang
