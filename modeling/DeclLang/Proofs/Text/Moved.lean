import DeclLang.Proofs.Text.Place

/-!
# Texts that are moved and continued

What stands before a text and behind it changes little of how it is matched.  If lines come before
it then each mark is moved by their number and by their bytes, and the columns stay (`Mark.moved`).
If it goes on with a character that is not of a class, then a run of the class ends where it ended
before (`Mark.continued`).
-/

namespace DeclLang.Text

/-! ### Runs of a class -/

section

variable {p : Char → Bool} {more : List Char}

theorem takeWhile_continued (hmore : Stops p more) (cs : List Char) :
    (cs ++ more).takeWhile p = cs.takeWhile p := by
  induction cs with
  | nil => cases more <;> simp_all
  | cons c cs ih => by_cases hc : p c = true <;> simp [hc, ih]

theorem dropWhile_continued (hmore : Stops p more) (cs : List Char) :
    (cs ++ more).dropWhile p = cs.dropWhile p ++ more := by
  induction cs with
  | nil => cases more <;> simp_all
  | cons c cs ih => by_cases hc : p c = true <;> simp [hc, ih]

end

/-! ### Places -/

namespace Place

/-- The place, if so many bytes in so many lines come before its text. -/
def moved (bytes lines : Nat) (p : Place) : Place := ⟨p.offset + bytes, p.line + lines, p.column⟩

variable {bytes lines : Nat}

theorem moved_after (p : Place) (c : Char) :
    (p.moved bytes lines).after c = (p.after c).moved bytes lines := by
  unfold after
  split <;> simp [moved] <;> omega

theorem moved_afterAll (p : Place) (cs : List Char) :
    (p.moved bytes lines).afterAll cs = (p.afterAll cs).moved bytes lines := by
  induction cs generalizing p with
  | nil => rfl
  | cons c cs ih => rw [afterAll_cons, moved_after, ih, afterAll_cons]

/-- Behind a line there is the first column. -/
theorem afterAll_lineFeed (cs : List Char) : start.afterAll (cs ++ ['\n']) =
    start.moved ((String.ofList cs).utf8ByteSize + 1) (cs.count '\n' + 1) := by
  have hplace := behind_afterAll cs
  rw [afterAll_append, afterAll_cons, afterAll_nil, after, if_pos rfl, hplace.offset, hplace.line]
  simp only [moved, start, Place.mk.injEq]
  refine ⟨?_, by omega, trivial⟩
  rw [Nat.zero_add]
  rfl

end Place

/-! ### Marks -/

namespace Mark

/-- The mark, if so many bytes in so many lines come before its text. -/
def moved (bytes lines : Nat) (m : Mark) : Mark := ⟨m.place.moved bytes lines, m.rest⟩

/-- The mark, if its text goes on. -/
def continued (more : List Char) (m : Mark) : Mark := ⟨m.place, m.rest ++ more⟩

variable {bytes lines : Nat} {m m' : Mark} {cs more : List Char}

theorem skipWhile_moved (p : Char → Bool) :
    (m.moved bytes lines).skipWhile p = (m.skipWhile p).moved bytes lines := by
  rw [skipWhile, moved, Place.moved_afterAll, skipWhile, moved]

theorem Passes.moved (h : m.Passes cs m') :
    (m.moved bytes lines).Passes cs (m'.moved bytes lines) :=
  ⟨h.1, by rw [Mark.moved, h.2, Mark.moved, Place.moved_afterAll]⟩

theorem indent?_moved : (m.moved bytes lines).indent? =
    m.indent?.map fun found => (found.1, found.2.moved bytes lines) := by
  unfold indent?
  rw [skipWhile_moved]
  simp only [moved]
  split
  case h_1 rest hrest =>
    by_cases hwidth : (rest.takeWhile isPad).length = 0
    · simp only [hwidth, ↓reduceIte, Option.map_none]
    · have hpad := @skipWhile_moved bytes lines ⟨(m.skipWhile isLineBlank).place.after '\n', rest⟩
        isPad
      simp only [hwidth, ↓reduceIte, Option.map_some, Place.moved_after]
      exact congrArg (fun n => some (_, n)) hpad
  case h_2 => rfl

theorem Passes.end_eq (h : m.Passes cs m') :
    m'.place.afterAll m'.rest = m.place.afterAll m.rest := by
  rw [h.1, h.2, Place.afterAll_append]

theorem skipWhile_continued {p : Char → Bool} (hmore : Stops p more) :
    (m.continued more).skipWhile p = (m.skipWhile p).continued more := by
  rw [skipWhile, continued, takeWhile_continued hmore, dropWhile_continued hmore]
  rfl

theorem indent?_continued (hmore : Stops isPad more) :
    (m.continued ('\n' :: more)).indent? =
      m.indent?.map fun found => (found.1, found.2.continued ('\n' :: more)) := by
  have hfeed {p : Char → Bool} (hp : p '\n' = false) : Stops p ('\n' :: more) := stops_cons.2 hp
  unfold indent?
  rw [skipWhile_continued (hfeed (by decide))]
  simp only [continued]
  cases hrest : (m.skipWhile isLineBlank).rest with
  | nil =>
    -- The line feed that is new ends the line, but there is no indentation behind it.
    have hwidth : more.takeWhile isPad = [] := by
      cases more <;> simp_all
    simp [hwidth]
  | cons c rest =>
    by_cases hc : c = '\n'
    · subst hc
      have hpad := @skipWhile_continued ⟨(m.skipWhile isLineBlank).place.after '\n', rest⟩ _
        isPad (hfeed (by decide))
      simp only [List.cons_append, takeWhile_continued (hfeed (p := isPad) (by decide))]
      by_cases hwidth : (rest.takeWhile isPad).length = 0
      · simp only [hwidth, ↓reduceIte, Option.map_none]
      · simp only [hwidth, ↓reduceIte, Option.map_some]
        exact congrArg (fun n => some (_, n)) hpad
    · simp [hc]

end Mark

end DeclLang.Text
