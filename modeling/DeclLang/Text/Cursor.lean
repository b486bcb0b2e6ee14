import DeclLang.Text.Mark

/-!
# Cursors

A `Cursor` moves over a `Source`. It knows where it is, and it keeps the marks of the transactions
that are open on it: `Cursor.begin` saves the current mark, `Cursor.rollback` returns to the mark
saved last, and `Cursor.commit` forgets that mark and stays.

* `Cursor.readKeyword` and `Cursor.readWord` first pass the blanks, and these stay passed when
  nothing is found; `Cursor.readIndent` moves only if it succeeds;
* each of the three looks for something in a transaction of its own (`Cursor.transaction`), which
  is committed when it is found and rolled back when it is not;
* a transaction that is closed without having been opened is `Unbalanced`, and the cursor stays
  as it was.
-/

namespace DeclLang.Text

/-! ### Sources and locations -/

/-- A text to be read. Two sources may hold the same text and still be different ones. -/
structure Source where
  /-- What tells sources of one text apart. -/
  id : Nat
  /-- The text. -/
  text : String
deriving DecidableEq, Repr

/-- A place in a named file. -/
structure Location where
  /-- The name of the file. -/
  filename : String
  /-- The place in it. -/
  place : Place
deriving DecidableEq, Repr

/-- The text of a location: file, line and column. -/
def Location.display (l : Location) : String :=
  s!"{l.filename}:{l.place.line}:{l.place.column}"

/-! ### Cursors -/

/-- A position in a source with the transactions open on it. -/
structure Cursor where
  /-- What the cursor reads. -/
  source : Source
  /-- The file name that its locations carry. -/
  filename : String
  /-- Where the cursor is. -/
  mark : Mark
  /-- The marks of the open transactions, the last opened first. -/
  saved : List Mark
deriving DecidableEq, Repr

/-- A transaction was closed that had not been opened. -/
inductive Unbalanced
  /-- By a commit. -/
  | commit
  /-- By a rollback. -/
  | rollback
deriving DecidableEq, Repr

/-- The text of the fault. -/
def Unbalanced.message : Unbalanced → String
  | .commit => "commit without matching begin"
  | .rollback => "rollback without matching begin"

namespace Cursor

/-- A cursor at the start of a source. -/
def start (source : Source) (filename : String) : Cursor :=
  ⟨source, filename, .start source.text, []⟩

variable (c : Cursor)

/-- Bytes before the cursor. -/
def position : Nat := c.mark.place.offset

/-- Number of open transactions. -/
def depth : Nat := c.saved.length

/-- The whole source is read. -/
def atEnd : Bool := c.mark.rest.isEmpty

/-- The next character. -/
def peek? : Option Char := c.mark.rest.head?

/-- The location of the cursor. -/
def location : Location := ⟨c.filename, c.mark.place⟩

/-- The same cursor at another mark. -/
def moveTo (m : Mark) : Cursor := { c with mark := m }

/-! ### Transactions -/

/-- Opens a transaction. -/
def begin : Cursor := { c with saved := c.mark :: c.saved }

/-- Closes the transaction opened last and stays. -/
def commit : Except Unbalanced Cursor :=
  match c.saved with
  | [] => .error .commit
  | _ :: saved => .ok { c with saved }

/-- Closes the transaction opened last and returns to where it was opened. -/
def rollback : Except Unbalanced Cursor :=
  match c.saved with
  | [] => .error .rollback
  | mark :: saved => .ok { c with mark, saved }

/-- Looks for something in a transaction, which is committed if it is found and else rolled back. -/
def transaction {α : Type} (find : Cursor → Option α × Cursor) :
    Except Unbalanced (Option α × Cursor) :=
  match find c.begin with
  | (some a, c) => c.commit.map fun c => (some a, c)
  | (none, c) => c.rollback.map fun c => (none, c)

/-! ### Reading -/

/-- Reads one character. -/
def read : Option Char × Cursor :=
  match c.mark.read? with
  | some (char, m) => (some char, c.moveTo m)
  | none => (none, c)

/-- The cursor behind a line feed, at the beginning of the next line. -/
def newline : Cursor :=
  c.moveTo { c.mark with place := { c.mark.place with line := c.mark.place.line + 1, column := 1 } }

/-- Passes the blanks. -/
def skipSpace : Cursor := c.moveTo c.mark.skipSpace

/-- Reads at most so many characters, until one of them is no line blank. The cursor is behind it
then, and on the next line if it is a line feed. -/
def readLineEnd (c : Cursor) : Nat → Bool × Cursor
  | 0 => (false, c)
  | n + 1 =>
    match c.read with
    | (none, c) => (false, c)
    | (some char, c) =>
      if isLineBlank char then c.readLineEnd n
      else if char = '\n' then (true, c.newline)
      else (false, c)

/-- Passes the end of a line and the indentation of the next, and returns its width. -/
def readIndent : Except Unbalanced (Option Nat × Cursor) :=
  c.transaction fun t =>
    let (found, t) := t.readLineEnd c.mark.rest.length
    let pad := t.mark.rest.takeWhile isPad
    if found ∧ pad ≠ [] then (some pad.length, t.moveTo (t.mark.skipWhile isPad))
    else (none, t)

/-- Passes the blanks and then a given text. -/
def readKeyword (text : String) : Except Unbalanced (Bool × Cursor) := do
  let (found, c) ← c.skipSpace.transaction fun t =>
    match t.mark.literal? text.toList with
    | some m => (some (), t.moveTo m)
    | none => (none, t)
  return (found.isSome, c)

/-- Passes the blanks and then a word, which it returns. -/
def readWord (first more : Char → Bool) : Except Unbalanced (Option String × Cursor) :=
  c.skipSpace.transaction fun t =>
    match t.mark.word? first more with
    | some (word, m) => (some word, t.moveTo m)
    | none => (none, t)

end Cursor

end DeclLang.Text
