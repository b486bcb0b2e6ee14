import DeclLang.Grammar.MemoTable
import DeclLang.Grammar.Scanner

/-!
# Parsers

A `Parser` carries what outlives the parsing of one text: the memo table and the diagnostics that
were recorded and not yet taken. Put to work on a cursor it is a `Scanner` (`ParseM`): each token is
looked up in the memo table first and recorded there when it was found in the text, and
`Scanner.attempt` is a transaction of the cursor. Finding a token in the text takes a transaction
of the cursor as well.

Closing a transaction that is not open is a fault (`Text.Unbalanced`) of the whole run.
-/

namespace DeclLang.Grammar

open Text

/-- What a parser keeps from one text to the next. -/
structure Parser where
  /-- The tokens found so far. -/
  memo : MemoTable
  /-- The diagnostics that were recorded and not yet taken, the oldest first. -/
  recorded : List Diagnostic

/-- A parser that has seen nothing. -/
def Parser.empty : Parser := ⟨.empty, []⟩

/-- A parser at work on a cursor. -/
structure Parsing where
  /-- The parser. -/
  parser : Parser
  /-- The cursor. -/
  cursor : Cursor

/-- Actions of a parser on a cursor. -/
abbrev ParseM := StateT Parsing (Except Unbalanced)

namespace ParseM

/-- Applies a function to the cursor that cannot fail. -/
def move (f : Cursor → Cursor) : ParseM Unit :=
  modify fun s => { s with cursor := f s.cursor }

/-- Closes a transaction. -/
def close (f : Cursor → Except Unbalanced Cursor) : ParseM Unit := do
  let s ← get
  set { s with cursor := ← f s.cursor }

/-- Runs a rule in a transaction, which keeps what a success has passed. -/
def transaction {α : Type} (rule : OptionT ParseM α) : OptionT ParseM α := OptionT.mk do
  move Cursor.begin
  let result ← rule.run
  close (if result.isSome then Cursor.commit else Cursor.rollback)
  return result

/-- A token, from the memo table if it is there, else from the text. -/
def token (kind : TokenKind) (expected : Option String)
    (find : Cursor → Except Unbalanced (Option String × Cursor)) : OptionT ParseM String := do
  let s ← get
  match s.parser.memo.lookup? s.cursor.position kind expected s.cursor with
  | some (token, cursor) =>
    set { s with cursor }
    return token
  | none =>
    match ← find s.cursor with
    | (some token, cursor) =>
      let memo := s.parser.memo.record s.cursor.position kind cursor token
      set { s with parser.memo := memo, cursor }
      return token
    | (none, cursor) =>
      set { s with cursor }
      failure

end ParseM

open ParseM in
instance : Scanner ParseM where
  keyword text := do
    let _ ← token .keyword text fun c => do
      let (found, c) ← c.readKeyword text
      return (if found then some text else none, c)
  identifier := token .identifier none fun c => c.readWord isVariableStart isNameChar
  typeName := token .typeName none fun c => c.readWord isTypeStart isNameChar
  indent := do
    let s ← get
    let (width, cursor) ← s.cursor.readIndent
    set { s with cursor }
    OptionT.mk (pure width)
  skipSpace := move Cursor.skipSpace
  attempt := transaction
  atEnd := return (← get).cursor.atEnd
  remaining := return (← get).cursor.mark.rest.length
  location := return (← get).cursor.location
  record d := modify fun s => { s with parser.recorded := s.parser.recorded ++ [d] }
  takeRecorded := do
    let s ← get
    set { s with parser.recorded := [] }
    return s.parser.recorded

/-- Runs a rule of a parser on a cursor. -/
def Parser.run {α : Type} (parser : Parser) (cursor : Cursor) (rule : OptionT ParseM α) :
    Except Unbalanced (Option α × Parsing) :=
  StateT.run rule.run ⟨parser, cursor⟩

end DeclLang.Grammar
