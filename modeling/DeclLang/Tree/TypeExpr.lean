/-!
# Type expressions

What a signature writes for a type: `Int`, `[Int]`, `{String:Int}` or `()`. Elements, keys and
values are names, so type expressions do not nest.

The unit type is the plain type of the name `()`, which no type name of a text can be.
-/

namespace DeclLang

/-- A type as a signature writes it. -/
inductive TypeExpr
  /-- A name. -/
  | plain (name : String)
  /-- An array of the named type. -/
  | array (element : String)
  /-- A map between named types. -/
  | map (key value : String)
deriving DecidableEq, Repr

namespace TypeExpr

/-- The name of the unit type. -/
def unitName : String := "()"

/-- The unit type. -/
def unit : TypeExpr := .plain unitName

/-- The name a type expression is known by: that of the elements for an array, that of the keys
for a map. -/
def name : TypeExpr → String
  | plain name => name
  | array element => element
  | map key _ => key

/-- It is an array. -/
def isArray : TypeExpr → Bool
  | array _ => true
  | _ => false

/-- It is a map. -/
def isMap : TypeExpr → Bool
  | map _ _ => true
  | _ => false

/-- It is the unit type. -/
def isUnit : TypeExpr → Bool
  | plain name => name == unitName
  | _ => false

/-- The key type of a map. -/
def key? : TypeExpr → Option String
  | map key _ => some key
  | _ => none

/-- The value type of a map. -/
def value? : TypeExpr → Option String
  | map _ value => some value
  | _ => none

end TypeExpr

end DeclLang
