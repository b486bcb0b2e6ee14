import Std.Data.TreeMap
import DeclLang.Text.Cursor

/-!
# Memo tables

A `MemoTable` keeps the tokens that were matched on one source: for a byte position and a kind of
token, the token that was found from there and the mark behind it.

* `MemoTable.lookup?` answers only to a cursor on the source the table is bound to, and a keyword
  that is asked for must be the one that was found;
* `MemoTable.record` on another source forgets everything and binds the table to that source;
* `MemoTable.size` counts the pairs of a position and a kind, since `Memo.key` tells them apart
  (`Memo.key_inj`).
-/

namespace DeclLang.Grammar

open Text

/-- The kinds of tokens. -/
inductive TokenKind
  /-- A fixed text. -/
  | keyword
  /-- The name of a variable or function. -/
  | identifier
  /-- The name of a type. -/
  | typeName
deriving DecidableEq, Repr

/-- A token and the mark behind it. -/
structure Memo where
  /-- The mark behind the token. -/
  mark : Mark
  /-- The token. -/
  token : String
deriving DecidableEq, Repr

namespace Memo

/-- The three kinds take turns in the numbering of the keys. -/
def key (position : Nat) : TokenKind → Nat
  | .keyword => 3 * position
  | .identifier => 3 * position + 1
  | .typeName => 3 * position + 2

theorem key_inj {p q : Nat} {k l : TokenKind} : key p k = key q l ↔ p = q ∧ k = l := by
  cases k <;> cases l <;> simp [key] <;> omega

end Memo

/-- The tokens matched on one source. -/
structure MemoTable where
  /-- The source the tokens were matched on; none before the first one. -/
  source : Option Source
  /-- The tokens. -/
  entries : Std.TreeMap Nat Memo

namespace MemoTable

/-- The table of nothing. -/
def empty : MemoTable := ⟨none, ∅⟩

variable (t : MemoTable)

/-- Number of tokens. -/
def size : Nat := t.entries.size

/-- No token is recorded. -/
def isEmpty : Bool := t.entries.isEmpty

/-- The token recorded for a position and a kind, and the cursor behind it. If a token is expected
then no other one will do. -/
def lookup? (position : Nat) (kind : TokenKind) (expected : Option String) (c : Cursor) :
    Option (String × Cursor) := do
  guard (t.source = some c.source)
  let memo ← t.entries[Memo.key position kind]?
  guard (expected.all (· = memo.token))
  return (memo.token, c.moveTo memo.mark)

/-- The table with the token that was found from a position, the cursor being behind it. -/
def record (position : Nat) (kind : TokenKind) (c : Cursor) (token : String) : MemoTable :=
  let entries := if t.source = some c.source then t.entries else ∅
  ⟨some c.source, entries.insert (Memo.key position kind) ⟨c.mark, token⟩⟩

end MemoTable

end DeclLang.Grammar
