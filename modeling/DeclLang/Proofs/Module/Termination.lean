import DeclLang.Proofs.Grammar.Misreading
import DeclLang.Proofs.Grammar.Termination
import DeclLang.Proofs.Module.Reading

/-!
# Reading a module comes to an end

The loop over the declarations of a text is one more loop that goes on only behind a match, so its
bound is not spent either (`Grammar.Same.itemsOr`).  How often it goes on is bounded by the size of
the text: the least that is a declaration is a name and a separator, so an accepted text has at
least three bytes for each declaration (`three_mul_length_le`).
-/

namespace DeclLang

open Grammar Text

/-! ### The loop over the declarations -/

namespace Grammar

theorem Same.itemsOr {k n n' : Nat}
    (spent spent' : ParseM (Except Diagnostic (List (Declaration × List Diagnostic))))
    (kept : List Diagnostic) (hn : k < n) (hn' : k < n') :
    Same k (Module.itemsOr spent kept n) (Module.itemsOr spent' kept n') := by
  induction n generalizing k n' kept with
  | zero => omega
  | succ n ih =>
    obtain ⟨n', rfl⟩ := Nat.exists_eq_add_one_of_ne_zero (Nat.ne_zero_of_lt hn')
    refine congr_right (fun s hs => ⟨_, _, rfl, hs.goes s.cursor.mark.skipSpace_passes⟩)
      fun _ => ?_
    refine congr_right (fun _ hs => ⟨_, _, rfl, hs.goes_self⟩) fun atEnd => ?_
    by_cases hend : atEnd = true
    · rw [if_pos hend, if_pos hend]
      exact refl k _
    rw [if_neg hend, if_neg hend]
    refine after .declaration (refl k _) (refl k _) fun d j hj => ?_
    refine congr_right (fun _ hs => ⟨_, _, rfl, ⟨hs.table, hs.fits⟩, rfl, le_rfl⟩)
      fun recorded => ?_
    exact (@ih j n' (kept ++ recorded) (by omega) (by omega)).congr_left _

end Grammar

/-! ### The least that is a declaration -/

/-- A declaration takes at least three characters. -/
theorem three_le_of_declaration {d : Declaration} {r r' : Reading}
    (hspace : Stops isBlank r.mark.rest)
    (h : ReadM.run declaration.run r = (some d, r')) :
    r'.mark.rest.length + 3 ≤ r.mark.rest.length := by
  cases d with
  | type d =>
    obtain ⟨w, hw, hsqueeze⟩ := Yields.declaration r _ r' h
    obtain ⟨cs, -, hpass, -, -⟩ := advances.declaration.2 r
    simp only [h] at hpass
    rw [squeeze_of_passes hpass, List.append_cancel_right_eq] at hsqueeze
    have hcs : (squeeze cs).length ≤ cs.length := List.length_filter_le _ cs
    have hlength := congrArg List.length hpass.1
    rw [List.length_append] at hlength
    have hspelling : 3 ≤ (squeeze cs).length := by
      rw [hsqueeze]
      cases hw with
      | type d =>
        obtain ⟨rest, hrest⟩ : ∃ rest, d.spelling = 't' :: 'y' :: 'p' :: 'e' :: rest := by
          cases d <;> exact ⟨_, rfl⟩
        rw [hrest]
        simp
    omega
  | function s =>
    obtain ⟨gap, more, -, hname, -, hpass, -⟩ := run_declaration_function hspace h
    obtain ⟨c, cs, hs, -⟩ := isWord_iff.1 hname
    have hlength := congrArg List.length hpass.1
    simp only [hs, String.toList_ofList, List.length_append, List.length_cons] at hlength
    omega

theorem Declares.three_mul_length_le {filename : String} {m : Mark}
    {parts : List (Declaration × List Diagnostic)} (h : Declares filename m parts) :
    3 * parts.length ≤ m.rest.length := by
  induction h with
  | nil => simp
  | @cons m _ _ _ _ _ hrun _ ih =>
    have hspace := congrArg List.length m.skipSpace_passes.1
    have htaken := three_le_of_declaration m.stops_skipSpace hrun
    rw [List.length_append] at hspace
    simp only [List.length_cons] at htaken ⊢
    omega

/-! ### Progress -/

namespace Grammar.Parser.Reached

/-- **Parsing makes progress, so it comes to an end.**  Let a parser have been through any calls on
any sources, and let a cursor be at any position of its text, however it came there.

A call returns, and leaves the cursor between where it was and the end of the text; behind where it
was if the call matches, unless it is of the empty keyword.  The loops over type expressions, over
members, over the elements of a deconstructor and over declarations, and the descent into nested
deconstructors, do not spend their bounds: with any bound larger than the number of characters left
they do what they do in the grammar, whatever is to be done when the bound is spent.  A rule comes
to its loops by calls of tokens, so it finds such a parser and such a cursor there.  A text that is
accepted has at least three bytes for each declaration. -/
theorem progress {parser : Parser} (h : parser.Reached) {c : Cursor}
    (hc : c.mark.Fits c.source.text) :
    (∀ call, ∃ result after, parser.run c (Call.rule call) = .ok (result, after) ∧
      c.position ≤ after.cursor.position ∧
      after.cursor.position ≤ c.source.text.utf8ByteSize ∧
      (result.isSome = true → call ≠ .keyword "" → c.position < after.cursor.position)) ∧
    (∀ n, c.mark.rest.length < n →
      (∀ spent, parser.run c (manyOr spent typeExpr n) =
        parser.run c (many typeExpr (c.mark.rest.length + 1))) ∧
      (∀ spent block, parser.run c (membersOr spent block n) =
        parser.run c (members block (c.mark.rest.length + 1))) ∧
      (∀ spent tooDeep, parser.run c (deconstructorWithinOr spent tooDeep n) =
        parser.run c deconstructor) ∧
      (∀ spent kept, StateT.run (Module.itemsOr spent kept n : ParseM _) ⟨parser, c⟩ =
        StateT.run (Module.items kept (c.mark.rest.length + 1)) ⟨parser, c⟩)) ∧
    ∀ text filename module, Module.parse text filename = .ok module →
      3 * module.declarations.length ≤ text.utf8ByteSize := by
  have hready : Parsing.Ready ⟨parser, c⟩ := ⟨h.onward, hc⟩
  have hbound : c.mark.rest.length < c.mark.rest.length + 1 := Nat.lt_succ_self _
  refine ⟨fun call => ?_, fun n hn => ⟨fun spent => ?_, fun spent block => ?_,
    fun spent tooDeep => ?_, fun spent kept => ?_⟩, fun text filename module hparse => ?_⟩
  · obtain ⟨result, after, hrun, hgoes⟩ := (Grammar.onward.call call).2.run _ hready
    refine ⟨result, after, hrun, hgoes.le, ?_, fun hsome hcall => ?_⟩
    · have hoffset := hgoes.ready.fits.offset_le
      rwa [hgoes.source] at hoffset
    · obtain ⟨a, rfl⟩ := Option.isSome_iff_exists.1 hsome
      exact (Call.gains hcall).lt hready hrun
  · exact (Same.manyOr .typeExpr _ spent hbound hn).run_eq hready
  · exact (Same.membersOr _ spent block hbound hn).run_eq hready
  · rw [deconstructor, Parser.run, Parser.run, ParseM.run_bound]
    exact (Same.deconstructorWithinOr spent tooDeep hbound hn _ hready le_rfl).symm
  · exact (Same.itemsOr _ spent kept hbound hn _ hready le_rfl).symm
  · obtain ⟨parts, hparts, rfl⟩ := Module.parse_eq_ok_iff.1 hparse
    have hlength := hparts.three_mul_length_le
    have hsize := Place.length_le_utf8ByteSize text.toList
    rw [String.ofList_toList] at hsize
    simpa using hlength.trans hsize

/-- A cursor that has read the line feed as a single character is on the first line still.  The
name is in the table, since a cursor that has skipped the line feed has read it. -/
theorem progress_behind_lineFeed : ∃ (parser : Parser) (c : Cursor), parser.Reached ∧
    c.mark.Fits c.source.text ∧ c.mark.place = ⟨1, 1, 2⟩ ∧
    (parser.memo.lookup? 1 .identifier none c).isSome = true ∧
    ∃ name after, parser.run c Call.identifier.rule = .ok (some name, after) ∧
      c.position < after.cursor.position ∧ after.cursor.position ≤ 2 := by
  have h := Reached.call (Cursor.start ⟨0, "\nf"⟩ "f").skipSpace .identifier .empty
    ((Mark.Fits.start _).takes (Mark.skipSpace_passes _).takes) rfl
  have hc : (Cursor.start ⟨0, "\nf"⟩ "f").read.2.mark.Fits "\nf" :=
    (Mark.Fits.start _).takes (Mark.read?_takes rfl)
  have hprogress := progress (c := (Cursor.start ⟨0, "\nf"⟩ "f").read.2) h hc
  obtain ⟨result, after, hrun, -, hle, hlt⟩ := hprogress.1 .identifier
  cases result with
  | none => cases hrun
  | some s => exact ⟨_, _, h, hc, rfl, rfl, s, after, hrun, hlt rfl nofun, hle⟩

end Grammar.Parser.Reached

end DeclLang
