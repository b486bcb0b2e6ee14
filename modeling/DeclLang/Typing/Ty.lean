import DeclLang.Tree.Declaration

/-!
# Types

A `Ty` is what a type name means: a builtin type or a user type. A user type knows its definition
and, once it has been checked, the types its members carry; these are types and not names, so a
type does not change when names are bound later. It keeps them twice, in the order of the members
and in a `TagTable` that has one entry for each tag.

Every type has an id. The ids up to `TypeId.lastBuiltin` are set apart for builtin types.
-/

namespace DeclLang.Typing

/-! ### Ids -/

/-- The number of a type. -/
structure TypeId where
  /-- The number. -/
  val : Nat
deriving DecidableEq, Repr, Ord

namespace TypeId

/-- The id of the integers. -/
def int : TypeId := ⟨1⟩

/-- The id of the strings. -/
def string : TypeId := ⟨2⟩

/-- The last id set apart for builtin types. -/
def lastBuiltin : TypeId := ⟨63⟩

/-- The id belongs to a builtin type. -/
def isBuiltin (id : TypeId) : Bool := id.val ≤ lastBuiltin.val

/-- The id behind this one. -/
def next (id : TypeId) : TypeId := ⟨id.val + 1⟩

/-- The number as a text. -/
def display (id : TypeId) : String := s!"{id.val}"

/-- The number with the name of its type. -/
def describe (id : TypeId) : String := s!"TypeId({id.val})"

end TypeId

/-! ### Types -/

/-- The meaning of a type name. -/
inductive Ty
  /-- The integers. -/
  | int
  /-- The strings. -/
  | string
  /-- A user type: its id, its definition, and the types of its members by place and by tag. -/
  | user (id : TypeId) (definition : Algebraic) (members : List Ty) (table : List (String × Ty))

/-- Types by the tags of members, in no order that matters. -/
abbrev TagTable := List (String × Ty)

namespace TagTable

/-- Enters a type under a tag, in the place of one that is there. -/
def insert (table : TagTable) (tag : String) (type : Ty) : TagTable :=
  (tag, type) :: table.filter (·.1 ≠ tag)

/-- The table of types that are entered under the tags of members, one after another. -/
def ofMembers (members : List Member) (types : List Ty) : TagTable :=
  (members.zip types).foldl (fun table entry => table.insert entry.1.tag entry.2) []

end TagTable

/-- A user type by itself. -/
structure UserType where
  /-- Its id. -/
  id : TypeId
  /-- Its definition. -/
  definition : Algebraic
  /-- The types its members carry, in the order of the definition; none before it is checked. -/
  members : List Ty
  /-- The types its members carry, by their tags; empty before it is checked. -/
  table : TagTable

namespace Ty

/-- The id of a type. -/
def id : Ty → TypeId
  | int => .int
  | string => .string
  | user id _ _ _ => id

/-- The user type, if it is one. -/
def user? : Ty → Option UserType
  | user id definition members table => some ⟨id, definition, members, table⟩
  | _ => none

mutual

/-- Two types have the same structure. -/
def same : Ty → Ty → Bool
  | int, int => true
  | string, string => true
  | user id definition members table, user id' definition' members' table' =>
    id == id' && definition == definition' && sameAll members members' &&
      table.length == table'.length && sameUnder table table'
  | _, _ => false

/-- Two lists of types have the same structure. -/
def sameAll : List Ty → List Ty → Bool
  | [], [] => true
  | t :: ts, t' :: ts' => same t t' && sameAll ts ts'
  | _, _ => false

/-- What the first table holds under a tag, the second one holds there too. -/
def sameUnder : List (String × Ty) → List (String × Ty) → Bool
  | [], _ => true
  | (tag, t) :: entries, table => (table.lookup tag).any (same t) && sameUnder entries table

end

end Ty

namespace UserType

/-- A user type that has not been checked. -/
def unchecked (id : TypeId) (definition : Algebraic) : UserType := ⟨id, definition, [], []⟩

/-- The name of the type. -/
def name (u : UserType) : String := u.definition.name

/-- The user type as a type. -/
def toTy (u : UserType) : Ty := .user u.id u.definition u.members u.table

/-- The user type with other types for its members, by place and by tag. -/
def fill (u : UserType) (members : List Ty) : UserType :=
  { u with members, table := .ofMembers u.definition.members members }

/-- The type that a tag carries. Of several members with one tag the last counts. -/
def member? (u : UserType) (tag : String) : Option Ty := u.table.lookup tag

end UserType

/-! ### Errors -/

/-- Why a type definition is refused. -/
inductive TypeError
  /-- The owner refers to a name that is not bound, as an alias or in the member of the tag. -/
  | undefined (name owner : String) (tag : Option String)
  /-- The name is bound already. -/
  | duplicate (name : String)
deriving DecidableEq, Repr

/-- The line that reports a refused definition. -/
def TypeError.message : TypeError → String
  | undefined name owner (some tag) => s!"Unknown type name '{name}' in '{owner}': '{tag} {name}'"
  | undefined name owner none => s!"Unknown type name '{name}' in alias '{owner}'"
  | duplicate name => s!"Type '{name}' is already defined"

end DeclLang.Typing
