import DeclLang.Proofs.Text.Matching

/-!
# Line breaks

Behind the last token of a line come blanks, a line feed, and the indentation of the next line
(`NextLine`).  `Cursor.matchIndent` finds exactly this, and passes it up to the first character that
is not of the indentation (`Cursor.matchIndent_spec`).

It is found by reading the line to its end, one character after another.  Reading does not count
lines, so the line feed has moved the cursor to the right, and only when it has been recognised the
cursor is put at the beginning of the next line; and if something else is found, or no indentation
behind it, then the cursor has to go back.  `Cursor.readIndent` does this in a transaction, and
`Cursor.readIndent_eq` says that it comes to the same.
-/

namespace DeclLang.Text

/-! ### The next line -/

/-- The text goes on with another line: what ends the line before, the indentation, and the rest. -/
structure NextLine (tail pad more cs : List Char) : Prop where
  isLineBlank_tail : ∀ c ∈ tail, isLineBlank c = true
  isPad_pad : ∀ c ∈ pad, isPad c = true
  stops : Stops isPad more
  eq : cs = tail ++ '\n' :: (pad ++ more)

namespace NextLine

variable {tail pad more tail' pad' more' rest cs : List Char}

theorem unique (h : NextLine tail pad more cs) (h' : NextLine tail' pad' more' cs) :
    pad = pad' ∧ more = more' := by
  have hfeed (cs : List Char) : Stops isLineBlank ('\n' :: cs) := stops_cons.2 (by decide)
  have hline : '\n' :: (pad ++ more) = '\n' :: (pad' ++ more') := by
    rw [← dropWhile_append_of_stops h.isLineBlank_tail (hfeed _), ← h.eq, h'.eq,
      dropWhile_append_of_stops h'.isLineBlank_tail (hfeed _)]
  have hrest := List.tail_eq_of_cons_eq hline
  have hpad : pad = pad' := by
    rw [← takeWhile_append_of_stops h.isPad_pad h.stops, hrest,
      takeWhile_append_of_stops h'.isPad_pad h'.stops]
  subst hpad
  exact ⟨rfl, List.append_cancel_left hrest⟩

/-- What is passed of the other line ends with its indentation. -/
theorem passed (h : NextLine tail pad rest (cs ++ rest)) : NextLine tail pad [] cs :=
  ⟨h.isLineBlank_tail, h.isPad_pad, stops_nil _, List.append_cancel_right (by simpa using h.eq)⟩

/-- The indentation is the longest one. -/
theorem of_lineFeed (htail : ∀ c ∈ tail, isLineBlank c = true) (hcs : cs = tail ++ '\n' :: rest) :
    NextLine tail (rest.takeWhile isPad) (rest.dropWhile isPad) cs :=
  ⟨htail, fun _ hc => List.mem_takeWhile_imp hc, stops_dropWhile isPad rest,
    by rw [List.takeWhile_append_dropWhile, hcs]⟩

end NextLine

/-! ### Places -/

namespace Place

theorem after_isLineBlank {c : Char} (h : isLineBlank c = true) (p : Place) :
    p.after c = ⟨p.offset + 1, p.line, p.column + 1⟩ := by
  simp only [isLineBlank, isPad, Bool.or_eq_true, beq_iff_eq] at h
  rcases h with (rfl | rfl) | rfl <;> rfl

/-- Line blanks are one byte long and stand on one line. -/
theorem afterAll_isLineBlank {cs : List Char} (h : ∀ c ∈ cs, isLineBlank c = true) (p : Place) :
    p.afterAll cs = ⟨p.offset + cs.length, p.line, p.column + cs.length⟩ := by
  induction cs generalizing p with
  | nil => rfl
  | cons c cs ih =>
    obtain ⟨hc, hcs⟩ := List.forall_mem_cons.1 h
    rw [afterAll_cons, after_isLineBlank hc, ih hcs, List.length_cons]
    simp only [Place.mk.injEq, true_and]
    omega

/-- Behind an indentation the column counts its characters. -/
theorem afterAll_nextLine {tail pad more cs : List Char} (h : NextLine tail pad more cs)
    (p : Place) : p.afterAll (tail ++ '\n' :: pad) =
      ⟨p.offset + tail.length + 1 + pad.length, p.line + 1, pad.length + 1⟩ := by
  have hpad : ∀ c ∈ pad, isLineBlank c = true := fun c hc => by
    rw [isLineBlank, h.isPad_pad c hc, Bool.true_or]
  have hfeed (q : Place) : q.after '\n' = ⟨q.offset + 1, q.line + 1, 1⟩ := rfl
  rw [afterAll_append, afterAll_cons, afterAll_isLineBlank h.isLineBlank_tail, hfeed,
    afterAll_isLineBlank hpad, Nat.add_comm 1]

end Place

/-! ### Matching -/

theorem Mark.indent?_nextLine {m : Mark} {tail pad more : List Char}
    (h : NextLine tail pad more m.rest) (hne : pad ≠ []) :
    m.indent? = some (pad.length, ⟨m.place.afterAll (tail ++ '\n' :: pad), more⟩) :=
  indent?_eq_some_iff.2 ⟨tail, pad, h.isLineBlank_tail, h.isPad_pad, rfl,
    by simpa using hne, h.stops, passes_of_rest_eq (by simp [h.eq])⟩

/-- An indentation that is found is that of the next line. -/
theorem Mark.nextLine_of_indent? {m m' : Mark} {width : Nat} (h : m.indent? = some (width, m')) :
    ∃ tail pad, NextLine tail pad m'.rest m.rest ∧ pad ≠ [] ∧ pad.length = width := by
  obtain ⟨tail, pad, htail, hpad, rfl, hwidth, hstops, hpass⟩ := indent?_eq_some_iff.1 h
  exact ⟨tail, pad, ⟨htail, hpad, hstops, by simpa using hpass.1⟩, by simpa using hwidth, rfl⟩

namespace Cursor

variable {c : Cursor} {tail pad more rest : List Char}

theorem matchIndent_nextLine (h : NextLine tail pad more c.mark.rest) (hne : pad ≠ []) :
    c.matchIndent =
      (some pad.length, c.moveTo ⟨c.mark.place.afterAll (tail ++ '\n' :: pad), more⟩) := by
  rw [matchIndent, Mark.indent?_nextLine h hne]

theorem matchIndent_of_not_indented
    (h : ∀ tail pad more, NextLine tail pad more c.mark.rest → pad = []) :
    c.matchIndent = (none, c) := by
  rw [matchIndent]
  cases hfound : c.mark.indent? with
  | none => rfl
  | some found =>
    obtain ⟨tail, pad, hnext, hne, -⟩ := Mark.nextLine_of_indent? hfound
    exact absurd (h tail pad _ hnext) hne

/-- An indented line comes next and is passed up to its first word, or the cursor stays. -/
theorem matchIndent_cases (c : Cursor) :
    (∃ tail pad more, NextLine tail pad more c.mark.rest ∧ pad ≠ [] ∧ c.matchIndent =
      (some pad.length, c.moveTo ⟨c.mark.place.afterAll (tail ++ '\n' :: pad), more⟩)) ∨
    c.matchIndent = (none, c) := by
  by_cases h : ∀ tail pad more, NextLine tail pad more c.mark.rest → pad = []
  · exact .inr (matchIndent_of_not_indented h)
  · simp only [not_forall] at h
    obtain ⟨tail, pad, more, hnext, hne⟩ := h
    exact .inl ⟨tail, pad, more, hnext, hne, matchIndent_nextLine hnext hne⟩

/-! ### Reading character by character -/

theorem read_of_rest_eq {char : Char} (h : c.mark.rest = char :: rest) :
    c.read = (some char, c.moveTo ⟨c.mark.place.right char, rest⟩) := by
  rw [read, Mark.read?, h]

/-- What reading a line feed has done to the place is put right. -/
theorem newline_right (c : Cursor) (p : Place) (rest : List Char) :
    (c.moveTo ⟨p.right '\n', rest⟩).newline = c.moveTo ⟨p.after '\n', rest⟩ := rfl

theorem readLineEnd_of_lineFeed (htail : ∀ c ∈ tail, isLineBlank c = true)
    (hrest : c.mark.rest = tail ++ '\n' :: rest) {n : Nat} (hn : tail.length < n) :
    c.readLineEnd n = (true, c.moveTo ⟨c.mark.place.afterAll (tail ++ ['\n']), rest⟩) := by
  induction tail generalizing c n with
  | nil =>
    obtain ⟨n, rfl⟩ := Nat.exists_eq_add_of_lt hn
    have hfeed : isLineBlank '\n' = false := by decide
    rw [readLineEnd, read_of_rest_eq hrest]
    simp only [hfeed, Bool.false_eq_true, ↓reduceIte, newline_right]
    rfl
  | cons char tail ih =>
    obtain ⟨n, rfl⟩ : ∃ k, n = k + 1 := ⟨n - 1, by omega⟩
    obtain ⟨hchar, htail⟩ := List.forall_mem_cons.1 htail
    have hright : c.mark.place.right char = c.mark.place.after char :=
      Place.after_eq_right (by rintro rfl; exact absurd hchar (by decide)) _
    rw [readLineEnd, read_of_rest_eq hrest]
    simp only [hchar, ↓reduceIte]
    rw [ih htail rfl (by simpa using hn), hright]
    rfl

theorem readLineEnd_of_absent
    (h : ∀ tail rest, (∀ c ∈ tail, isLineBlank c = true) → c.mark.rest ≠ tail ++ '\n' :: rest)
    (n : Nat) : ∃ m, c.readLineEnd n = (false, c.moveTo m) := by
  induction n generalizing c with
  | zero => exact ⟨c.mark, rfl⟩
  | succ n ih =>
    cases hrest : c.mark.rest with
    | nil => exact ⟨c.mark, by rw [readLineEnd, read, Mark.read?, hrest]; rfl⟩
    | cons char rest =>
      rw [readLineEnd, read_of_rest_eq hrest]
      simp only
      split_ifs with hblank hfeed
      · obtain ⟨m, hm⟩ := @ih (c.moveTo ⟨c.mark.place.right char, rest⟩)
          fun tail rest' htail hrest' => h (char :: tail) rest'
            (List.forall_mem_cons.2 ⟨hblank, htail⟩) (hrest.trans (congrArg _ hrest'))
        exact ⟨m, hm⟩
      · exact absurd (hfeed ▸ hrest) (h [] rest (List.forall_mem_nil _))
      · exact ⟨_, rfl⟩

/-- **Reading in a transaction comes to the same.**  The transaction is closed on every way. -/
theorem readIndent_eq (c : Cursor) : c.readIndent = .ok c.matchIndent := by
  by_cases h : ∃ tail rest, (∀ c ∈ tail, isLineBlank c = true) ∧ c.mark.rest = tail ++ '\n' :: rest
  · obtain ⟨tail, rest, htail, hrest⟩ := h
    have hlength : tail.length < c.mark.rest.length := by
      rw [hrest, List.length_append, List.length_cons]
      omega
    have hread := @readLineEnd_of_lineFeed c.begin _ _ htail hrest _ hlength
    have hnext := NextLine.of_lineFeed htail hrest
    by_cases hpad : rest.takeWhile isPad = []
    · have hmatch : c.matchIndent = (none, c) :=
        matchIndent_of_not_indented fun _ _ _ hnext' => (hnext'.unique hnext).1.trans hpad
      rw [readIndent, hmatch]
      refine transaction_of_none (m := ⟨c.mark.place.afterAll (tail ++ ['\n']), rest⟩) ?_
      rw [hread]
      simp only [moveTo, hpad, ne_eq, not_true_eq_false, and_false, ↓reduceIte]
      rfl
    · rw [readIndent, matchIndent_nextLine hnext hpad]
      refine transaction_of_some ?_
      rw [hread]
      simp only [moveTo, ne_eq, hpad, not_false_eq_true, and_self, ↓reduceIte,
        Place.afterAll_append, Place.afterAll_cons]
      rfl
  · obtain ⟨m, hread⟩ := @readLineEnd_of_absent c.begin
      (fun tail rest htail hrest => h ⟨tail, rest, htail, hrest⟩) c.mark.rest.length
    have hmatch : c.matchIndent = (none, c) :=
      matchIndent_of_not_indented fun tail pad more hnext =>
        absurd ⟨tail, _, hnext.isLineBlank_tail, hnext.eq⟩ h
    rw [readIndent, hmatch]
    refine transaction_of_none (m := m) ?_
    rw [hread]
    rfl

theorem readIndent_passes {c' : Cursor} {width : Option Nat}
    (h : c.readIndent = .ok (width, c')) : c.Passes c' := by
  rw [c.readIndent_eq] at h
  obtain rfl : c.matchIndent.2 = c' := congrArg Prod.snd (Except.ok.inj h)
  exact c.matchIndent_passes

/-! ### What is matched -/

/-- **A match is one line break and the indentation behind it.**  For every cursor:

* a width is returned if and only if line blanks come first, then a line feed, and then an
  indentation of this width, which is not empty and does not go on;
* the cursor is behind the indentation then, on the next line, in the column behind it;
* if no line comes next, or one that is not indented, then nothing is returned and the cursor is
  what it was;
* the open transactions are what they were, although the line is read in one. -/
theorem matchIndent_spec (c : Cursor) :
    (∀ width, c.matchIndent.1 = some width ↔ 1 ≤ width ∧
      ∃ tail pad more, NextLine tail pad more c.mark.rest ∧ pad.length = width) ∧
    (∀ tail pad more, NextLine tail pad more c.mark.rest → pad ≠ [] →
      c.matchIndent = (some pad.length, c.moveTo
        ⟨⟨c.mark.place.offset + tail.length + 1 + pad.length, c.mark.place.line + 1,
          pad.length + 1⟩, more⟩)) ∧
    ((∀ tail pad more, NextLine tail pad more c.mark.rest → pad = []) →
      c.matchIndent = (none, c)) ∧
    c.matchIndent.2.saved = c.saved ∧ c.readIndent = .ok c.matchIndent := by
  refine ⟨fun width => ⟨fun h => ?_, ?_⟩, fun tail pad more hnext hne => ?_,
    matchIndent_of_not_indented, ?_, c.readIndent_eq⟩
  · rcases c.matchIndent_cases with ⟨tail, pad, more, hnext, hne, hmatch⟩ | hmatch <;>
      rw [hmatch] at h <;> cases h
    exact ⟨List.length_pos_iff.2 hne, tail, pad, more, hnext, rfl⟩
  · rintro ⟨hwidth, tail, pad, more, hnext, rfl⟩
    rw [matchIndent_nextLine hnext (List.ne_nil_of_length_pos hwidth)]
  · rw [matchIndent_nextLine hnext hne, Place.afterAll_nextLine hnext]
  · rcases c.matchIndent_cases with ⟨_, _, _, -, -, hmatch⟩ | hmatch
    · rw [hmatch]
      rfl
    · rw [hmatch]

example : (start ⟨0, " \r\n  \tI Int"⟩ "f").readIndent =
    .ok (some 3, (start ⟨0, " \r\n  \tI Int"⟩ "f").moveTo ⟨⟨6, 2, 4⟩, "I Int".toList⟩) := rfl

end Cursor

end DeclLang.Text
