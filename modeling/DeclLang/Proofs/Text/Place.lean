import Mathlib.Data.List.DropRight
import DeclLang.Text.Cursor
import DeclLang.Proofs.Text.Passage

/-!
# What a place says

A place is counted up one character at a time, token by token.  `Place.Behind` says what the three
numbers mean without counting: bytes, line feeds and the length of the last line of the text that
the place is behind.  Every passage from the start of a text ends at such a place
(`Mark.On.isIn`), so a place that is handed out is true of its text (`Location.IsIn`).

The numbers are not larger than the text has bytes, by more than one (`Location.IsIn.lt`).
-/

namespace DeclLang.Text

/-! ### Places -/

/-- The numbers of a place are those of the text before it. -/
structure Place.Behind (p : Place) (before : List Char) : Prop where
  /-- The offset counts bytes. -/
  offset : p.offset = (String.ofList before).utf8ByteSize
  /-- The line counts line feeds. -/
  line : p.line = 1 + before.count '\n'
  /-- The column counts the characters behind the last line feed. -/
  column : p.column = 1 + (before.rtakeWhile (· ≠ '\n')).length

namespace Place

theorem offset_afterAll (p : Place) (cs : List Char) :
    (p.afterAll cs).offset = p.offset + (String.ofList cs).utf8ByteSize := by
  induction cs generalizing p with
  | nil => simp
  | cons c cs ih =>
    rw [afterAll_cons, ih, offset_after, String.ofList_cons, String.utf8ByteSize_append,
      String.utf8ByteSize_singleton, Nat.add_assoc]

theorem behind_afterAll (cs : List Char) : (start.afterAll cs).Behind cs := by
  refine ⟨by rw [offset_afterAll]; exact Nat.zero_add _, ?_, ?_⟩
  all_goals induction cs using List.reverseRecOn with
  | nil => rfl
  | append_singleton cs c ih =>
    rw [afterAll_append, afterAll_cons, afterAll_nil, after]
    split
    case isTrue hc => subst hc; simp [ih, Nat.add_assoc]
    case isFalse hc => simp [ih, hc, Nat.add_assoc]

theorem length_le_utf8ByteSize (cs : List Char) : cs.length ≤ (String.ofList cs).utf8ByteSize := by
  induction cs with
  | nil => exact Nat.zero_le _
  | cons c cs ih =>
    have := c.utf8Size_pos
    rw [String.ofList_cons, String.utf8ByteSize_append, String.utf8ByteSize_singleton,
      List.length_cons]
    omega

end Place

/-! ### Locations -/

/-- The location is true of a text in a file: it is the place behind a part of the text. -/
def Location.IsIn (l : Location) (text filename : String) : Prop :=
  (∃ before after, text.toList = before ++ after ∧ l.place.Behind before) ∧ l.filename = filename

namespace Location.IsIn

variable {l : Location} {text filename : String}

/-- A text shorter than the largest number has no line and no column beyond it. -/
theorem lt {limit : Nat} (h : l.IsIn text filename) (hlimit : text.utf8ByteSize < limit - 1) :
    l.place.line < limit ∧ l.place.column < limit := by
  obtain ⟨⟨before, after, htext, hbehind⟩, -⟩ := h
  have hbefore : before.length ≤ text.utf8ByteSize := by
    have := Place.length_le_utf8ByteSize text.toList
    rw [String.ofList_toList, htext, List.length_append] at this
    omega
  have hline := before.count_le_length (a := '\n')
  have hcolumn := (List.rtakeWhile_suffix (· ≠ '\n') before).length_le
  rw [hbehind.line, hbehind.column]
  omega

end Location.IsIn

/-- A mark of a text has a true place. -/
theorem Mark.On.isIn {m : Mark} {text : String} (h : m.On text) (filename : String) :
    Location.IsIn ⟨filename, m.place⟩ text filename := by
  obtain ⟨cs, hrest, hplace⟩ := h
  exact ⟨⟨cs, m.rest, hrest, hplace ▸ Place.behind_afterAll cs⟩, rfl⟩

end DeclLang.Text
