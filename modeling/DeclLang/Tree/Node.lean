import DeclLang.Tree.Declaration
import DeclLang.Tree.Deconstructor

/-!
# Nodes

Everything the grammar can produce, as one type. Each kind of tree is a node by coercion.
-/

namespace DeclLang

/-- A tree of any kind. -/
inductive Node
  /-- An alias. -/
  | ofAlias (definition : Alias)
  /-- An algebraic type. -/
  | ofAlgebraic (definition : Algebraic)
  /-- A signature. -/
  | ofSignature (signature : Signature)
  /-- A type expression. -/
  | ofTypeExpr (type : TypeExpr)
  /-- A deconstructor. -/
  | ofDeconstructor (pattern : Deconstructor)

namespace Node

/-- The node of a type definition. -/
def ofTypeDefinition : TypeDefinition → Node
  | .ofAlias definition => ofAlias definition
  | .ofAlgebraic definition => ofAlgebraic definition

/-- The node of a declaration. -/
def ofDeclaration : Declaration → Node
  | .type definition => ofTypeDefinition definition
  | .function signature => ofSignature signature

/-- The type definition, if the node is one. -/
def typeDefinition? : Node → Option TypeDefinition
  | ofAlias definition => some (.ofAlias definition)
  | ofAlgebraic definition => some (.ofAlgebraic definition)
  | _ => none

end Node

instance : Coe TypeDefinition Node := ⟨Node.ofTypeDefinition⟩
instance : Coe Declaration Node := ⟨Node.ofDeclaration⟩
instance : Coe Signature Node := ⟨Node.ofSignature⟩
instance : Coe TypeExpr Node := ⟨Node.ofTypeExpr⟩
instance : Coe Deconstructor Node := ⟨Node.ofDeconstructor⟩

end DeclLang
