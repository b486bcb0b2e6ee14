/-!
# Character classes

The classes of characters the language tells apart: blanks, which separate tokens, the letters
names are made of, and the characters of a line's indentation.

* `isBlank` is Unicode's `White_Space` property, so the ideographic space separates tokens just
  as the ASCII space does;
* names are ASCII: the case of the first character tells a type name from another name
  (`isVariableStart_eq_false_of_isTypeStart`), and no character of a name is a blank
  (`isBlank_eq_false_of_isNameChar`);
* the characters that may stand between a token and the end of its line are blanks
  (`isBlank_of_isLineBlank`).
-/

namespace DeclLang.Text

/-- The code points of `White_Space`. -/
def blanks : List Nat :=
  [0x09, 0x0A, 0x0B, 0x0C, 0x0D, 0x20, 0x85, 0xA0, 0x1680,
   0x2000, 0x2001, 0x2002, 0x2003, 0x2004, 0x2005, 0x2006, 0x2007, 0x2008, 0x2009, 0x200A,
   0x2028, 0x2029, 0x202F, 0x205F, 0x3000]

/-- Characters that separate tokens. -/
def isBlank (c : Char) : Bool := blanks.contains c.toNat

/-- First characters of variable and function names. -/
def isVariableStart (c : Char) : Bool := c == '_' || c.isLower

/-- First characters of type names. -/
def isTypeStart (c : Char) : Bool := c.isUpper

/-- Characters a name goes on with. -/
def isNameChar (c : Char) : Bool := c == '_' || c.isAlphanum

/-- Characters of an indentation. -/
def isPad (c : Char) : Bool := c == ' ' || c == '\t'

/-- Characters that may stand between the last token of a line and its line feed. -/
def isLineBlank (c : Char) : Bool := isPad c || c == '\r'

theorem isBlank_of_isLineBlank {c : Char} (h : isLineBlank c = true) : isBlank c = true := by
  simp only [isLineBlank, isPad, Bool.or_eq_true, beq_iff_eq] at h
  rcases h with (rfl | rfl) | rfl <;> decide

theorem isBlank_of_isPad {c : Char} (h : isPad c = true) : isBlank c = true :=
  isBlank_of_isLineBlank (by rw [isLineBlank, h]; rfl)

theorem isUpper_iff_toNat {c : Char} : c.isUpper = true ↔ 65 ≤ c.toNat ∧ c.toNat ≤ 90 :=
  decide_eq_true_iff

theorem isLower_iff_toNat {c : Char} : c.isLower = true ↔ 97 ≤ c.toNat ∧ c.toNat ≤ 122 := by
  show (decide (c.val ≥ 'a'.val) && decide (c.val ≤ 'z'.val)) = true ↔ _
  rw [Bool.and_eq_true, decide_eq_true_iff, decide_eq_true_iff]
  exact Iff.rfl

theorem isNameChar_iff {c : Char} : isNameChar c = true ↔
    c = '_' ∨ (c.isUpper = true ∨ c.isLower = true) ∨ c.isDigit = true := by
  show (c == '_' || (c.isUpper || c.isLower || c.isDigit)) = true ↔ _
  rw [Bool.or_eq_true, Bool.or_eq_true, Bool.or_eq_true, beq_iff_eq]

theorem isVariableStart_iff {c : Char} :
    isVariableStart c = true ↔ c = '_' ∨ c.isLower = true := by
  rw [isVariableStart, Bool.or_eq_true, beq_iff_eq]

theorem isNameChar_of_isVariableStart {c : Char} (h : isVariableStart c = true) :
    isNameChar c = true := by
  rw [isNameChar_iff]
  rcases isVariableStart_iff.1 h with h | h
  · exact .inl h
  · exact .inr (.inl (.inr h))

theorem isNameChar_of_isTypeStart {c : Char} (h : isTypeStart c = true) : isNameChar c = true :=
  isNameChar_iff.2 (.inr (.inl (.inl h)))

theorem isVariableStart_eq_false_of_isTypeStart {c : Char} (h : isTypeStart c = true) :
    isVariableStart c = false := by
  have hupper := isUpper_iff_toNat.1 h
  rw [Bool.eq_false_iff]
  intro hc
  rcases isVariableStart_iff.1 hc with rfl | hlower
  · exact absurd h (by decide)
  · have := isLower_iff_toNat.1 hlower
    omega

theorem isBlank_eq_false_of_isNameChar {c : Char} (h : isNameChar c = true) :
    isBlank c = false := by
  have range : 48 ≤ c.toNat ∧ c.toNat ≤ 122 := by
    rcases isNameChar_iff.1 h with rfl | (h | h) | h
    · decide
    · have := isUpper_iff_toNat.1 h
      omega
    · have := isLower_iff_toNat.1 h
      omega
    · have : 48 ≤ c.toNat ∧ c.toNat ≤ 57 := Char.isDigit_iff_toNat.1 h
      omega
  rw [isBlank, List.contains_eq_mem, decide_eq_false_iff_not]
  intro hc
  simp [blanks] at hc
  omega

theorem isVariableStart_eq_false_of_isBlank {c : Char} (h : isBlank c = true) :
    isVariableStart c = false := by
  rw [Bool.eq_false_iff]
  intro hc
  rw [isBlank_eq_false_of_isNameChar (isNameChar_of_isVariableStart hc)] at h
  cases h

end DeclLang.Text
