import DeclLang.Text.Cursor
import DeclLang.Proofs.Text.Passage

/-!
# What a cursor passes

A cursor looks for a token or an indentation in a transaction.  Whether that is committed or rolled
back, the transactions open on the cursor are what they were, so the match can be told without one:
`Cursor.matchIndent`, `Cursor.matchKeyword` and `Cursor.matchWord` move the cursor at once to where
it ends, and `Cursor.readKeyword_eq` and `Cursor.readWord_eq` say that this is where it ends; for
an indentation see `Cursor.readIndent_eq`.

An operation that matches moves the cursor over a text and changes nothing else of it, whether it
succeeds, stays behind the blanks, or does not move at all (`Cursor.Passes`).  One statement for
each operation says so.  Reading a single character is the exception: over a line feed it does not
count lines.
-/

namespace DeclLang.Text.Cursor

variable (c : Cursor)

/-! ### Matches -/

/-- Passes the end of a line and the indentation of the next, and returns its width. -/
def matchIndent : Option Nat × Cursor :=
  match c.mark.indent? with
  | some (width, m) => (some width, c.moveTo m)
  | none => (none, c)

/-- Passes the blanks and then a given text. -/
def matchKeyword (text : String) : Bool × Cursor :=
  let c := c.skipSpace
  match c.mark.literal? text.toList with
  | some m => (true, c.moveTo m)
  | none => (false, c)

/-- Passes the blanks and then a word, which it returns. -/
def matchWord (first more : Char → Bool) : Option String × Cursor :=
  let c := c.skipSpace
  match c.mark.word? first more with
  | some (word, m) => (some word, c.moveTo m)
  | none => (none, c)

/-! ### Transactions -/

variable {c} {α : Type} {find : Cursor → Option α × Cursor} {m : Mark}

/-- The transaction that is committed is the one that was opened. -/
theorem transaction_of_some {a : α} (h : find c.begin = (some a, c.begin.moveTo m)) :
    c.transaction find = .ok (some a, c.moveTo m) := by
  rw [transaction, h]
  rfl

/-- The transaction that is rolled back is the one that was opened. -/
theorem transaction_of_none (h : find c.begin = (none, c.begin.moveTo m)) :
    c.transaction find = .ok (none, c) := by
  rw [transaction, h]
  rfl

variable (c)

/-- **A keyword that is read in a transaction is matched.** -/
theorem readKeyword_eq (text : String) : c.readKeyword text = .ok (c.matchKeyword text) := by
  rw [readKeyword, matchKeyword]
  cases hfound : c.skipSpace.mark.literal? text.toList with
  | none =>
    rw [transaction_of_none (m := c.skipSpace.mark) (by simp [begin, moveTo, hfound])]
    rfl
  | some m =>
    rw [transaction_of_some (a := ()) (m := m) (by simp [begin, moveTo, hfound])]
    rfl

/-- **A word that is read in a transaction is matched.** -/
theorem readWord_eq (first more : Char → Bool) :
    c.readWord first more = .ok (c.matchWord first more) := by
  rw [readWord, matchWord]
  cases hfound : c.skipSpace.mark.word? first more with
  | none => rw [transaction_of_none (m := c.skipSpace.mark) (by simp [begin, moveTo, hfound])]
  | some found =>
    rw [transaction_of_some (a := found.1) (m := found.2) (by simp [begin, moveTo, hfound])]

/-! ### Passing -/

/-- Of the cursor only the mark has changed, which is behind a text now. -/
def Passes (c c' : Cursor) : Prop := ∃ cs, c.mark.Passes cs c'.mark ∧ c' = c.moveTo c'.mark

theorem Passes.refl : c.Passes c := ⟨[], .refl c.mark, rfl⟩

variable {c}

theorem Passes.source_filename_eq {c' : Cursor} (h : c.Passes c') :
    c'.source = c.source ∧ c'.filename = c.filename := by
  obtain ⟨cs, -, hc'⟩ := h
  rw [hc']
  exact ⟨rfl, rfl⟩

variable (c)

theorem skipSpace_passes : c.Passes c.skipSpace := ⟨_, c.mark.skipSpace_passes, rfl⟩

theorem matchIndent_passes : c.Passes c.matchIndent.2 := by
  unfold matchIndent
  cases hindent : c.mark.indent? with
  | none => exact .refl c
  | some found =>
    obtain ⟨tail, pad, -, -, -, -, -, hpass⟩ := Mark.indent?_eq_some_iff.1 hindent
    exact ⟨_, hpass, rfl⟩

theorem matchKeyword_passes (text : String) : c.Passes (c.matchKeyword text).2 := by
  unfold matchKeyword
  cases hfound : c.skipSpace.mark.literal? text.toList with
  | none => simpa only [hfound] using c.skipSpace_passes
  | some m =>
    simp only [hfound]
    exact ⟨_, c.mark.skipSpace_passes.trans (Mark.literal?_eq_some_iff.1 hfound), rfl⟩

theorem matchWord_passes (first more : Char → Bool) : c.Passes (c.matchWord first more).2 := by
  unfold matchWord
  cases hfound : c.skipSpace.mark.word? first more with
  | none => simpa only [hfound] using c.skipSpace_passes
  | some found =>
    simp only [hfound]
    obtain ⟨d, ds, -, -, -, -, hpass⟩ := Mark.word?_eq_some_iff.1 hfound
    exact ⟨_, c.mark.skipSpace_passes.trans hpass, rfl⟩

theorem readKeyword_passes {c' : Cursor} {text : String} {found : Bool}
    (h : c.readKeyword text = .ok (found, c')) : c.Passes c' := by
  rw [c.readKeyword_eq] at h
  obtain rfl : (c.matchKeyword text).2 = c' := congrArg Prod.snd (Except.ok.inj h)
  exact c.matchKeyword_passes text

theorem readWord_passes {c' : Cursor} {first more : Char → Bool} {word : Option String}
    (h : c.readWord first more = .ok (word, c')) : c.Passes c' := by
  rw [c.readWord_eq] at h
  obtain rfl : (c.matchWord first more).2 = c' := congrArg Prod.snd (Except.ok.inj h)
  exact c.matchWord_passes first more

theorem read_passes (hpeek : c.peek? ≠ some '\n') : c.Passes c.read.2 := by
  unfold read
  cases hread : c.mark.read? with
  | none => exact .refl c
  | some found =>
    obtain ⟨char, m⟩ := found
    have hchar : c.peek? = some char := by
      unfold Mark.read? at hread
      split at hread
      case h_1 => cases hread
      case h_2 hrest => cases hread; simp [peek?, hrest]
    refine ⟨_, Mark.read?_passes hread ?_, rfl⟩
    rintro rfl
    exact hpeek hchar

end DeclLang.Text.Cursor
