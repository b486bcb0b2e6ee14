import DeclLang.Tree.TypeExpr

/-!
# Declarations

A module declares types and functions. A type is declared as an alias of another type or as an
algebraic type, which lists its tagged members; a function is declared by its signature.
-/

namespace DeclLang

/-- Another name for a type. -/
structure Alias where
  /-- The new name. -/
  name : String
  /-- The name of the type it stands for. -/
  target : String
deriving DecidableEq, Repr

/-- One case of an algebraic type. -/
structure Member where
  /-- What tells it from the other cases. -/
  tag : String
  /-- The name of the type it carries. -/
  payload : String
deriving DecidableEq, Repr

/-- A type given by its cases. -/
structure Algebraic where
  /-- The name of the type. -/
  name : String
  /-- Its cases, in the order of the text. -/
  members : List Member
deriving DecidableEq, Repr

/-- A type declaration. -/
inductive TypeDefinition
  /-- Another name for a type. -/
  | ofAlias (definition : Alias)
  /-- A type given by its cases. -/
  | ofAlgebraic (definition : Algebraic)
deriving DecidableEq, Repr

/-- The name that is declared. -/
def TypeDefinition.name : TypeDefinition → String
  | ofAlias definition => definition.name
  | ofAlgebraic definition => definition.name

/-- The types a definition refers to, in the order of the text. -/
def TypeDefinition.references : TypeDefinition → List String
  | ofAlias definition => [definition.target]
  | ofAlgebraic definition => definition.members.map Member.payload

/-- A function declaration. -/
structure Signature where
  /-- The name of the function. -/
  name : String
  /-- The types it takes; absent if none is written. -/
  inputs : Option (List TypeExpr)
  /-- The types it returns; absent if none is written. -/
  outputs : Option (List TypeExpr)
deriving DecidableEq, Repr

/-- A declaration of a module. -/
inductive Declaration
  /-- Of a type. -/
  | type (definition : TypeDefinition)
  /-- Of a function. -/
  | function (signature : Signature)
deriving DecidableEq, Repr

namespace Declaration

/-- The name that is declared. -/
def name : Declaration → String
  | type definition => definition.name
  | function signature => signature.name

/-- The type definition, if it is one. -/
def typeDefinition? : Declaration → Option TypeDefinition
  | type definition => some definition
  | function _ => none

/-- The signature, if it is one. -/
def signature? : Declaration → Option Signature
  | type _ => none
  | function signature => some signature

end Declaration

end DeclLang
