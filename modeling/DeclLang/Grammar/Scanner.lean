import DeclLang.Diagnostic

/-!
# Scanners

The grammar is written against `Scanner`: the tokens it is made of, a way to go back, and a list
for diagnostics. What a rule means is thus one thing, and how its tokens are found, whether by
looking at the text each time or in a memo table, is another.

A rule is an `OptionT m` action: it returns a tree, or it fails. Where a failed rule leaves the
scanner, and which diagnostics it recorded, is part of its meaning.
-/

namespace DeclLang.Grammar

open Text

/-- A monad that finds tokens in a text. -/
class Scanner (m : Type → Type) where
  /-- Passes the blanks and a given text. The blanks stay passed if the text is not there. -/
  keyword : String → OptionT m Unit
  /-- Passes the blanks and the name of a variable or function. The blanks stay passed if no such
  name is there. -/
  identifier : OptionT m String
  /-- Passes the blanks and the name of a type. The blanks stay passed if no such name is there. -/
  typeName : OptionT m String
  /-- Passes the end of a line and the indentation of the next one, and returns its width. Moves
  only if it succeeds. -/
  indent : OptionT m Nat
  /-- Passes the blanks. -/
  skipSpace : m Unit
  /-- Runs a rule, and goes back to where it began if it fails. -/
  attempt {α : Type} : OptionT m α → OptionT m α
  /-- The text is read. -/
  atEnd : m Bool
  /-- Number of characters left. -/
  remaining : m Nat
  /-- Where the scanner is. -/
  location : m Location
  /-- Adds a diagnostic to the recorded ones. -/
  record : Diagnostic → m Unit
  /-- Hands out the recorded diagnostics, which are then no longer recorded. -/
  takeRecorded : m (List Diagnostic)

end DeclLang.Grammar
