/-!
# Deconstructors

A deconstructor `(Pair a (Inner b) c)` takes a value apart: it names a type and lists, for each
field of the value in turn, a variable to bind it to or a deconstructor to go on with.
-/

namespace DeclLang

namespace Deconstructor

/-- What a deconstructor does with one field. -/
inductive Element
  /-- Binds the field at this index to a variable. -/
  | binding (index : Nat) (name : String)
  /-- Takes the field apart in turn. -/
  | nested (typeName : String) (elements : List Element)

/-- A variable and the index of the field it is bound to. -/
structure Leaf where
  /-- The index among the elements of the same parentheses. -/
  index : Nat
  /-- The variable. -/
  name : String
deriving DecidableEq, Repr

mutual

/-- The variables of an element, from left to right. -/
def Element.leaves : Element → List Leaf
  | .binding index name => [⟨index, name⟩]
  | .nested _ elements => leavesOf elements

/-- The variables of a list of elements, from left to right. -/
def leavesOf : List Element → List Leaf
  | [] => []
  | e :: es => e.leaves ++ leavesOf es

end

end Deconstructor

/-- A pattern that takes a value of a named type apart. -/
structure Deconstructor where
  /-- The name of the type. -/
  typeName : String
  /-- What becomes of the fields, in order. -/
  elements : List Deconstructor.Element

namespace Deconstructor

/-- The variables a deconstructor binds at any depth, from left to right. -/
def leaves (d : Deconstructor) : List Leaf := leavesOf d.elements

/-- The deconstructor as an element of another one. -/
def toElement (d : Deconstructor) : Element := .nested d.typeName d.elements

end Deconstructor

end DeclLang
