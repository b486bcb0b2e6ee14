import DeclLang.Grammar.Scanner
import DeclLang.Tree.Declaration
import DeclLang.Tree.Deconstructor

/-!
# The rules of the grammar

```text
typeExpr       ::=  typeName | '[' typeName ']' | '{' typeName ':' typeName '}' | '()'
signature      ::=  identifier '::' typeExpr* ('=' typeExpr*)?
typeDefinition ::=  'type' typeName typeName
                 |  'type' typeName ':' (indent typeName typeName)+
deconstructor  ::=  '(' typeName (deconstructor | identifier)* ')'
declaration    ::=  typeDefinition | signature
```

Choices are ordered and lists are greedy. A form that has begun so that no other one can be meant
records what it misses before it fails. All member lines of a type stand at the indentation of
the first: a deeper line spoils the whole definition, a shallower one ends it.

Every list and every nesting is bounded by the number of characters left, which is no bound at
all, since each element takes at least one of them. What a loop does when its bound is spent is a
parameter (`manyOr`, `membersOr`, `elementsOr`, `deconstructorWithinOr`); in the grammar it stops
there.
-/

namespace DeclLang.Grammar

open Scanner

variable {m : Type → Type} [Monad m] [Scanner m]

/-! ### Failing and repeating -/

/-- Records what is wrong here. -/
def report (kind : Diagnostic.Kind) : OptionT m Unit :=
  OptionT.lift do record ⟨kind, ← location⟩

/-- Records what is wrong here, and fails. -/
def refuse {α : Type} (kind : Diagnostic.Kind) : OptionT m α := do
  report kind
  failure

/-- Passes a given text, or records that it is missing. -/
def expect (text : String) (kind : Diagnostic.Kind) : OptionT m Unit :=
  keyword text <|> refuse kind

/-- A number that no list of things found in the rest of the text can reach. -/
def bound : OptionT m Nat :=
  OptionT.lift do return (← remaining) + 1

/-- As many results of a rule as there are, and what to do when the bound is spent. -/
def manyOr {α : Type} (spent : OptionT m (List α)) (rule : OptionT m α) :
    Nat → OptionT m (List α)
  | 0 => spent
  | n + 1 => do
    match ← optional rule with
    | none => return []
    | some a => return a :: (← manyOr spent rule n)

/-- As many results of a rule as there are, and at most the given number. -/
def many {α : Type} (rule : OptionT m α) (n : Nat) : OptionT m (List α) :=
  manyOr (return []) rule n

omit [Scanner m] in
theorem many_succ {α : Type} (rule : OptionT m α) (n : Nat) :
    many rule (n + 1) = do
      match ← optional rule with
      | none => return []
      | some a => return a :: (← many rule n) := rfl

/-! ### Type expressions and signatures -/

/-- An array type. -/
def arrayType : OptionT m TypeExpr := attempt do
  keyword "["
  let element ← typeName
  expect "]" .expectedCloseBracket
  return .array element

/-- A map type. -/
def mapType : OptionT m TypeExpr := attempt do
  keyword "\x7b"
  let key ← typeName
  expect ":" .expectedColon
  let value ← typeName <|> refuse .expectedTypeName
  expect "\x7d" .expectedCloseBrace
  return .map key value

/-- A type expression. A failure leaves the blanks before it passed. -/
def typeExpr : OptionT m TypeExpr :=
  .plain <$> typeName <|> arrayType <|> mapType <|> (do keyword "()"; return .unit)

/-- The type expressions up to the first thing that is none; absent if there are none. -/
def typeExprs : OptionT m (Option (List TypeExpr)) := do
  match ← many typeExpr (← bound) with
  | [] => return none
  | types => return some types

/-- A signature. What follows its name and separator cannot make it fail. -/
def signature : OptionT m Signature := attempt do
  let name ← identifier
  keyword "::"
  let inputs ← typeExprs
  let outputs ← (do keyword "="; typeExprs) <|> pure none
  return { name, inputs, outputs }

/-! ### Type definitions -/

/-- What a line of a member block turns out to be. -/
inductive Line
  /-- A member, at this indentation. -/
  | member (width : Nat) (member : Member)
  /-- A line less deep than the block. -/
  | shallower
  /-- A line deeper than the block. -/
  | deeper

/-- One line of a member block. The block has the width given, or none yet if it is the first. -/
def line (block : Option Nat) : OptionT m Line := do
  let width ← indent
  if block.any (· < width) then
    report .unexpectedIndent
    return .deeper
  if block.any (width < ·) then
    return .shallower
  let tag ← typeName
  let payload ← typeName
  return .member width { tag, payload }

/-- The members of a block, and what to do when the bound is spent. A line that is no member ends
the block; a shallower one is passed up to its first word. -/
def membersOr (spent : OptionT m (List Member)) (block : Option Nat) :
    Nat → OptionT m (List Member)
  | 0 => spent
  | n + 1 => do
    match ← optional (attempt (line block)) with
    | some (.member width member) => return member :: (← membersOr spent (some width) n)
    | some .deeper => failure
    | some .shallower => return []
    | none => return []

/-- The members of a block, and at most the given number. -/
def members (block : Option Nat) (n : Nat) : OptionT m (List Member) :=
  membersOr (return []) block n

theorem members_succ (block : Option Nat) (n : Nat) :
    members (m := m) block (n + 1) = do
      match ← optional (attempt (line block)) with
      | some (.member width member) => return member :: (← members (some width) n)
      | some .deeper => failure
      | some .shallower => return []
      | none => return [] := rfl

/-- A type definition. -/
def typeDefinition : OptionT m TypeDefinition := attempt do
  keyword "type"
  let name ← typeName <|> refuse .expectedTypeName
  if let some target ← optional typeName then
    return .ofAlias { name, target }
  expect ":" .expectedColon
  match ← members none (← bound) with
  | [] => failure
  | members => return .ofAlgebraic { name, members }

/-! ### Deconstructors -/

/-- The elements of a deconstructor from an index on, given the rule for the nested ones, and what
to do when the bound is spent. -/
def elementsOr (spent : OptionT m (List Deconstructor.Element)) (nested : OptionT m Deconstructor)
    (index : Nat) : Nat → OptionT m (List Deconstructor.Element)
  | 0 => spent
  | n + 1 => do
    match ← optional (Deconstructor.toElement <$> nested <|> .binding index <$> identifier) with
    | none => return []
    | some element => return element :: (← elementsOr spent nested (index + 1) n)

/-- The elements of a deconstructor from an index on, and at most the given number. -/
def elements (nested : OptionT m Deconstructor) (index n : Nat) :
    OptionT m (List Deconstructor.Element) :=
  elementsOr (return []) nested index n

theorem elements_succ (nested : OptionT m Deconstructor) (index n : Nat) :
    elements nested index (n + 1) = do
      match ← optional (Deconstructor.toElement <$> nested <|> .binding index <$> identifier) with
      | none => return []
      | some element => return element :: (← elements nested (index + 1) n) := rfl

/-- A deconstructor, and what to do when the bound on the elements or that on the depth is spent. -/
def deconstructorWithinOr (spent : OptionT m (List Deconstructor.Element))
    (tooDeep : OptionT m Deconstructor) : Nat → OptionT m Deconstructor
  | 0 => tooDeep
  | n + 1 => attempt do
    keyword "("
    let typeName ← typeName
    let elements ← elementsOr spent (deconstructorWithinOr spent tooDeep n) 0 (n + 1)
    expect ")" .expectedCloseParen
    return { typeName, elements }

/-- A deconstructor that nests less deep than the given number and has at most as many elements. -/
def deconstructorWithin (n : Nat) : OptionT m Deconstructor :=
  deconstructorWithinOr (return []) failure n

theorem deconstructorWithin_succ (n : Nat) :
    deconstructorWithin (m := m) (n + 1) = attempt do
      keyword "("
      let typeName ← typeName
      let elements ← elements (deconstructorWithin n) 0 (n + 1)
      expect ")" .expectedCloseParen
      return { typeName, elements } := rfl

/-- A deconstructor. -/
def deconstructor : OptionT m Deconstructor := do
  deconstructorWithin (← bound)

/-! ### Declarations -/

/-- A function with its body. Bodies have no grammar yet, so no text is one. -/
def function : OptionT m Signature := attempt do
  let _ ← identifier
  failure

/-- A declaration. -/
def declaration : OptionT m Declaration :=
  .type <$> typeDefinition <|> .function <$> signature

end DeclLang.Grammar
