import DeclLang.Grammar.Parser
import DeclLang.Grammar.Rules

/-!
# Modules

A `Module` is a whole text as a list of declarations. `Module.parse` reads one: declaration after
declaration until the text is read, or until no declaration begins.

* A declaration may match although a part of it was given up. The diagnostics recorded on the way
  are kept in the module.
* If no declaration begins, the text is refused for the first diagnostic that the last attempt
  recorded, or else for the first one kept before, or else for a syntax error where it stands.
-/

namespace DeclLang

open Grammar Text

/-- The declarations of a text. -/
structure Module where
  /-- The name of the file. -/
  filename : String
  /-- The declarations, in the order of the text. -/
  declarations : List Declaration
  /-- What was wrong in declarations that matched nevertheless, in the order of the text. -/
  diagnostics : List Diagnostic
deriving DecidableEq, Repr

namespace Module

/-- The type definitions, in the order of the text. -/
def typeDefinitions (m : Module) : List TypeDefinition :=
  m.declarations.filterMap Declaration.typeDefinition?

/-- The signatures, in the order of the text. -/
def signatures (m : Module) : List Signature :=
  m.declarations.filterMap Declaration.signature?

section Rule

open Scanner

variable {m : Type → Type} [Monad m] [Scanner m]

/-- The declarations up to the end of the text, each with the diagnostics it recorded, given the
diagnostics that were kept before, and what to do when the bound is spent. -/
def itemsOr (spent : m (Except Diagnostic (List (Declaration × List Diagnostic))))
    (kept : List Diagnostic) : Nat → m (Except Diagnostic (List (Declaration × List Diagnostic)))
  | 0 => spent
  | n + 1 => do
    skipSpace
    if ← atEnd then
      return .ok []
    let result ← declaration.run
    let recorded ← takeRecorded
    match result with
    | some d => return (← itemsOr spent (kept ++ recorded) n).map ((d, recorded) :: ·)
    | none => return .error ((recorded ++ kept).headD ⟨.syntaxError, ← location⟩)

/-- The declarations up to the end of the text, and at most the given number. -/
def items (kept : List Diagnostic) (n : Nat) :
    m (Except Diagnostic (List (Declaration × List Diagnostic))) :=
  itemsOr (return .ok []) kept n

theorem items_succ (kept : List Diagnostic) (n : Nat) :
    items (m := m) kept (n + 1) = do
      skipSpace
      if ← atEnd then
        return .ok []
      let result ← declaration.run
      let recorded ← takeRecorded
      match result with
      | some d => return (← items (kept ++ recorded) n).map ((d, recorded) :: ·)
      | none => return .error ((recorded ++ kept).headD ⟨.syntaxError, ← location⟩) := rfl

/-- The module of a whole text. -/
def body (filename : String) : m (Except Diagnostic Module) := do
  let parts ← items [] ((← remaining) + 1)
  return parts.map fun parts => ⟨filename, parts.map Prod.fst, parts.flatMap Prod.snd⟩

end Rule

/-- The module of a text, or why there is none. Rules close every transaction they open, so a run
has no fault; there is no module if it had one. -/
def parse (text filename : String) : Except Diagnostic Module :=
  let cursor := Cursor.start ⟨0, text⟩ filename
  match StateT.run (body filename : ParseM _) ⟨.empty, cursor⟩ with
  | .ok (result, _) => result
  | .error _ => .error ⟨.syntaxError, cursor.location⟩

end Module

end DeclLang
