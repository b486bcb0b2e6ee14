import DeclLang.Text.Cursor

/-!
# Diagnostics

What can be wrong with a text, and where. The wording is in `Diagnostic.Kind.message` alone.
-/

namespace DeclLang

/-- What is wrong. -/
inductive Diagnostic.Kind
  /-- No declaration begins here. -/
  | syntaxError
  /-- A type name is missing. -/
  | expectedTypeName
  /-- A colon is missing. -/
  | expectedColon
  /-- The bracket of an array type is not closed. -/
  | expectedCloseBracket
  /-- The brace of a map type is not closed. -/
  | expectedCloseBrace
  /-- The parenthesis of a deconstructor is not closed. -/
  | expectedCloseParen
  /-- A member line stands deeper than the first one of its block. -/
  | unexpectedIndent
deriving DecidableEq, Repr

/-- The wording of a kind. -/
def Diagnostic.Kind.message : Diagnostic.Kind → String
  | .syntaxError => "Syntax error"
  | .expectedTypeName => "Expected a typename."
  | .expectedColon => "Expected ':'"
  | .expectedCloseBracket => "Expected ']'"
  | .expectedCloseBrace => "Expected '\x7d'"
  | .expectedCloseParen => "Expected ')'"
  | .unexpectedIndent => "Unexpected indent."

/-- A fault in a text and its location. -/
structure Diagnostic where
  /-- What is wrong. -/
  kind : Diagnostic.Kind
  /-- Where. -/
  location : Text.Location
deriving DecidableEq, Repr

/-- The line that reports a diagnostic. -/
def Diagnostic.message (d : Diagnostic) : String :=
  s!"{d.location.display} {d.kind.message}"

end DeclLang
