import DeclLang.Text.CharClass

/-!
# Places and marks

A `Place` says where a character of a text stands, for a human (line and column) and for a
machine (byte offset). A `Mark` is a place together with the text from there on.

Matching looks at the text after a mark and answers with the mark behind what it matched:

* `Mark.skipSpace` passes the blanks;
* `Mark.literal?` passes a given text;
* `Mark.word?` passes the longest word of a given shape and returns it;
* `Mark.indent?` passes the end of a line and the indentation of the next one.

All of them count lines and columns by `Place.after`, which reads the text one character at a
time, so a place depends only on the text before it and not on how the text was cut into tokens.
-/

namespace DeclLang.Text

/-! ### Places -/

/-- Where a character of a text stands. -/
structure Place where
  /-- Bytes before it, in UTF-8. -/
  offset : Nat
  /-- Its line; the first is 1. -/
  line : Nat
  /-- Its column, in characters; the first is 1. -/
  column : Nat
deriving DecidableEq, Repr

namespace Place

/-- The first place of a text. -/
def start : Place := ⟨0, 1, 1⟩

/-- The place behind one character. -/
def after (p : Place) (c : Char) : Place :=
  if c = '\n' then ⟨p.offset + c.utf8Size, p.line + 1, 1⟩
  else ⟨p.offset + c.utf8Size, p.line, p.column + 1⟩

/-- The place behind a run of characters. -/
def afterAll (p : Place) (cs : List Char) : Place := cs.foldl after p

/-- The place behind one character on the same line, whatever the character is. -/
def right (p : Place) (c : Char) : Place := ⟨p.offset + c.utf8Size, p.line, p.column + 1⟩

end Place

/-! ### Marks -/

/-- A place and the text from there on. -/
structure Mark where
  /-- Where the text begins. -/
  place : Place
  /-- The text. -/
  rest : List Char
deriving DecidableEq, Repr

namespace Mark

/-- The mark before a whole text. -/
def start (text : String) : Mark := ⟨.start, text.toList⟩

/-- The mark behind the longest run of characters of a class. -/
def skipWhile (m : Mark) (p : Char → Bool) : Mark :=
  ⟨m.place.afterAll (m.rest.takeWhile p), m.rest.dropWhile p⟩

/-- The mark behind the blanks. -/
def skipSpace (m : Mark) : Mark := m.skipWhile isBlank

/-- The mark behind a given text, if the rest begins with it. -/
def literal? (m : Mark) (text : List Char) : Option Mark :=
  if text.isPrefixOf m.rest then some ⟨m.place.afterAll text, m.rest.drop text.length⟩ else none

/-- The longest word with a first character from one class and all others from another, and the
mark behind it. -/
def word? (m : Mark) (first more : Char → Bool) : Option (String × Mark) :=
  match m.rest with
  | [] => none
  | c :: rest =>
    if first c then
      some (String.ofList (c :: rest.takeWhile more),
        (⟨m.place.after c, rest⟩ : Mark).skipWhile more)
    else none

/-- The width of the next line's indentation and the mark behind it. Nothing but line blanks may
come before the line feed, and the indentation may not be empty. -/
def indent? (m : Mark) : Option (Nat × Mark) :=
  let lineEnd := m.skipWhile isLineBlank
  match lineEnd.rest with
  | '\n' :: rest =>
    let width := (rest.takeWhile isPad).length
    if width = 0 then none
    else some (width, (⟨lineEnd.place.after '\n', rest⟩ : Mark).skipWhile isPad)
  | _ => none

/-- The next character and the mark behind it on the same line. A line feed taken this way does
not begin a new line. -/
def read? (m : Mark) : Option (Char × Mark) :=
  match m.rest with
  | [] => none
  | c :: rest => some (c, ⟨m.place.right c, rest⟩)

end Mark

end DeclLang.Text
