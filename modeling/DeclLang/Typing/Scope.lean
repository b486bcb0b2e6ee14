import DeclLang.Module
import DeclLang.Typing.Ty

/-!
# Scopes

A `Scope` binds type names to types and numbers the user types. Definitions are checked one after
the other against the names bound before, so a type can refer neither to itself nor to a later
one.

* `Scope.define` binds the name of a definition. It refuses a name that is bound, whatever else is
  wrong with the definition.
* An alias is bound to the type of its target, with the same id.
* An algebraic type draws an id before its members are looked up. If one of them is not bound then
  the id is spent all the same.
-/

namespace DeclLang.Typing

/-- The type names that are bound. -/
structure Scope where
  /-- The names and their types, the last bound first. -/
  bindings : List (String × Ty)
  /-- The last id that was drawn. -/
  lastId : TypeId

namespace Scope

/-- The scope of the builtin types. -/
def builtin : Scope := ⟨[("Int", .int), ("String", .string)], .lastBuiltin⟩

variable (s : Scope)

/-! ### Names -/

/-- The type of a name. -/
def get? (name : String) : Option Ty := s.bindings.lookup name

/-- The name is bound. -/
def contains (name : String) : Bool := (s.get? name).isSome

/-- Number of names. -/
def size : Nat := s.bindings.length

/-- No name is bound. -/
def isEmpty : Bool := s.bindings.isEmpty

/-- Binds a name that is not bound yet. -/
def insert (name : String) (type : Ty) : Except TypeError Scope :=
  if s.contains name then .error (.duplicate name)
  else .ok { s with bindings := (name, type) :: s.bindings }

/-! ### User types -/

/-- Draws an id. -/
def drawId : TypeId × Scope := (s.lastId.next, { s with lastId := s.lastId.next })

/-- Draws an id for a definition. -/
def newUserType (definition : Algebraic) : UserType × Scope :=
  let (id, s) := s.drawId
  (.unchecked id definition, s)

/-- The types of the members of a definition, or the first member whose type is not bound. -/
def memberTypes (owner : String) : List Member → Except TypeError (List Ty)
  | [] => .ok []
  | m :: ms =>
    match s.get? m.payload with
    | none => .error (.undefined m.payload owner (some m.tag))
    | some type => (memberTypes owner ms).map (type :: ·)

/-- The user type with the types its members have in the scope. -/
def check (u : UserType) : Except TypeError UserType :=
  (s.memberTypes u.name u.definition.members).map u.fill

/-- Checks a user type where it stands, whatever it has been checked against before. A type that is
refused stays as it was. -/
def checkInPlace (u : UserType) : Except TypeError Unit × UserType :=
  match s.check u with
  | .error e => (.error e, u)
  | .ok u => (.ok (), u)

/-! ### Definitions -/

/-- The type of a definition. -/
def typeOf : TypeDefinition → Except TypeError Ty × Scope
  | .ofAlias definition =>
    match s.get? definition.target with
    | none => (.error (.undefined definition.target definition.name none), s)
    | some type => (.ok type, s)
  | .ofAlgebraic definition =>
    let (u, s) := s.newUserType definition
    ((s.check u).map UserType.toTy, s)

/-- Checks a definition and binds its name. Returns the id of the type. -/
def define (definition : TypeDefinition) : Except TypeError TypeId × Scope :=
  if s.contains definition.name then (.error (.duplicate definition.name), s)
  else
    match s.typeOf definition with
    | (.error e, s) => (.error e, s)
    | (.ok type, s) =>
      match s.insert definition.name type with
      | .error e => (.error e, s)
      | .ok s => (.ok type.id, s)

/-- Checks and binds definitions in order, up to the first that is refused. -/
def defineAll (s : Scope) : List TypeDefinition → Except TypeError Unit × Scope
  | [] => (.ok (), s)
  | d :: ds =>
    match s.define d with
    | (.error e, s) => (.error e, s)
    | (.ok _, s) => s.defineAll ds

/-- Checks and binds the type definitions of a module. Signatures have no part in it. -/
def checkModule (m : Module) : Except TypeError Unit × Scope := s.defineAll m.typeDefinitions

end Scope

end DeclLang.Typing
