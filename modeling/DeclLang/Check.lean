import DeclLang.Typing.Scope

/-!
# Checking a text

`checkSource` reads a text and checks its type definitions against the builtin types.
-/

namespace DeclLang

open Typing

/-- Why a text is refused. -/
inductive SourceError
  /-- It is no module. -/
  | parse (diagnostic : Diagnostic)
  /-- One of its type definitions is refused. -/
  | check (error : TypeError)
deriving DecidableEq, Repr

/-- The line that reports a refused text. -/
def SourceError.message : SourceError → String
  | parse diagnostic => diagnostic.message
  | check error => error.message

/-- Where the error is, if that is known. -/
def SourceError.location? : SourceError → Option Text.Location
  | parse diagnostic => some diagnostic.location
  | check _ => none

/-- The scope that the type definitions of a text make. -/
def checkSource (text filename : String) : Except SourceError Scope :=
  match Module.parse text filename with
  | .error diagnostic => .error (.parse diagnostic)
  | .ok m =>
    match Scope.builtin.checkModule m with
    | (.error error, _) => .error (.check error)
    | (.ok (), scope) => .ok scope

end DeclLang
