import DeclLang.Grammar.Rules

/-!
# Simulations between scanners

The rules of the grammar are written against `Scanner` alone, so whatever holds of the tokens and
is kept by sequencing holds of every rule.  A `Simulation` is a relation between the actions of
two scanners with one closure condition for each way to build an action; its theorems, one for
each rule, say that the two readings of the rule are related.

A diagnostic is recorded where the scanner stands, so that recording one counts as a single step
here (`Scanner.report`): the locations themselves need not agree.
-/

namespace DeclLang.Grammar

open Scanner

variable {m n : Type → Type} [Monad m] [Monad n] [Scanner m] [Scanner n]

/-- A relation between the actions of two scanners that every way to build a rule respects. -/
structure Simulation (R : (α : Type) → m α → n α → Prop) : Prop where
  pure {α : Type} (a : α) : R α (pure a) (pure a)
  bind {α β : Type} {x : m α} {y : n α} {f : α → m β} {g : α → n β} :
    R α x y → (∀ a, R β (f a) (g a)) → R β (x >>= f) (y >>= g)
  keyword (text : String) : R _ (keyword (m := m) text).run (keyword (m := n) text).run
  identifier : R _ (identifier (m := m)).run (identifier (m := n)).run
  typeName : R _ (typeName (m := m)).run (typeName (m := n)).run
  indent : R _ (indent (m := m)).run (indent (m := n)).run
  attempt {α : Type} {x : OptionT m α} {y : OptionT n α} :
    R _ x.run y.run → R _ (attempt x).run (attempt y).run
  remaining : R _ (remaining (m := m)) (remaining (m := n))
  report (kind : Diagnostic.Kind) : R _ (report (m := m) kind).run (report (m := n) kind).run

namespace Simulation

variable {R : (α : Type) → m α → n α → Prop} (S : Simulation R) {α β : Type}

/-! ### Rules that fail, choose and repeat -/

section Combinators

variable {x : OptionT m α} {y : OptionT n α}
include S

theorem succeed (a : α) : R _ (Pure.pure a : OptionT m α).run (Pure.pure a : OptionT n α).run :=
  S.pure (some a)

theorem fail : R _ (failure : OptionT m α).run (failure : OptionT n α).run :=
  S.pure none

theorem next {f : α → OptionT m β} {g : α → OptionT n β} (h : R _ x.run y.run)
    (hf : ∀ a, R _ (f a).run (g a).run) : R _ (x >>= f).run (y >>= g).run := by
  refine S.bind h fun r => ?_
  cases r with
  | none => exact S.pure none
  | some a => exact hf a

theorem orElse {x' : OptionT m α} {y' : OptionT n α} (h : R _ x.run y.run)
    (h' : R _ x'.run y'.run) : R _ (x <|> x').run (y <|> y').run := by
  refine S.bind h fun r => ?_
  cases r with
  | none => exact h'
  | some a => exact S.pure (some a)

theorem map (f : α → β) (h : R _ x.run y.run) : R _ (f <$> x).run (f <$> y).run :=
  S.next h fun a => S.succeed (f a)

theorem optional (h : R _ x.run y.run) : R _ (optional x).run (optional y).run :=
  S.orElse (S.map some h) (S.succeed none)

theorem lift {x : m α} {y : n α} (h : R _ x y) :
    R _ (OptionT.lift x).run (OptionT.lift y).run :=
  S.bind h fun a => S.pure (some a)

theorem refuse (kind : Diagnostic.Kind) :
    R _ (refuse kind : OptionT m α).run (refuse kind : OptionT n α).run :=
  S.next (S.report kind) fun _ => S.fail

theorem expect (text : String) (kind : Diagnostic.Kind) :
    R _ (expect (m := m) text kind).run (expect (m := n) text kind).run :=
  S.orElse (S.keyword text) (S.refuse kind)

theorem bound : R _ (bound (m := m)).run (bound (m := n)).run :=
  S.lift (S.bind S.remaining fun k => S.pure (k + 1))

theorem many (h : R _ x.run y.run) (k : Nat) : R _ (many x k).run (many y k).run := by
  induction k with
  | zero => exact S.succeed []
  | succ k ih =>
    refine S.next (S.optional h) fun r => ?_
    cases r with
    | none => exact S.succeed []
    | some a => exact S.next ih fun as => S.succeed (a :: as)

end Combinators

/-! ### The rules of the grammar -/

section Rules

include S

theorem arrayType : R _ (arrayType (m := m)).run (arrayType (m := n)).run := by
  refine S.attempt (S.next (S.keyword "[") fun _ => S.next S.typeName fun element => ?_)
  exact S.next (S.expect "]" .expectedCloseBracket) fun _ => S.succeed _

theorem mapType : R _ (mapType (m := m)).run (mapType (m := n)).run := by
  refine S.attempt (S.next (S.keyword "\x7b") fun _ => S.next S.typeName fun key => ?_)
  refine S.next (S.expect ":" .expectedColon) fun _ => ?_
  refine S.next (S.orElse S.typeName (S.refuse .expectedTypeName)) fun value => ?_
  exact S.next (S.expect "\x7d" .expectedCloseBrace) fun _ => S.succeed _

theorem typeExpr : R _ (typeExpr (m := m)).run (typeExpr (m := n)).run := by
  refine S.orElse (S.map _ S.typeName) (S.orElse S.arrayType (S.orElse S.mapType ?_))
  exact S.next (S.keyword "()") fun _ => S.succeed _

theorem typeExprs : R _ (typeExprs (m := m)).run (typeExprs (m := n)).run := by
  refine S.next S.bound fun k => S.next (S.many S.typeExpr k) fun types => ?_
  cases types with
  | nil => exact S.succeed _
  | cons t ts => exact S.succeed _

theorem signature : R _ (signature (m := m)).run (signature (m := n)).run := by
  refine S.attempt (S.next S.identifier fun name => S.next (S.keyword "::") fun _ => ?_)
  refine S.next S.typeExprs fun inputs => ?_
  refine S.next (S.orElse (S.next (S.keyword "=") fun _ => S.typeExprs) (S.succeed _))
    fun outputs => S.succeed _

theorem line (block : Option Nat) : R _ (line (m := m) block).run (line (m := n) block).run := by
  refine S.next S.indent fun width => ?_
  by_cases deeper : block.any (· < width) = true
  · simp only [deeper, ↓reduceIte]
    exact S.next (S.report .unexpectedIndent) fun _ => S.succeed _
  simp only [deeper]
  by_cases shallower : block.any (width < ·) = true
  · simp only [shallower, ↓reduceIte]
    exact S.succeed _
  simp only [shallower]
  exact S.next S.typeName fun tag => S.next S.typeName fun payload =>
    S.succeed _

theorem members (block : Option Nat) (k : Nat) :
    R _ (members (m := m) block k).run (members (m := n) block k).run := by
  induction k generalizing block with
  | zero => exact S.succeed _
  | succ k ih =>
    refine S.next (S.optional (S.attempt (S.line block))) fun r => ?_
    match r with
    | some (.member width member) => exact S.next (ih (some width)) fun ms => S.succeed _
    | some .deeper => exact S.fail
    | some .shallower => exact S.succeed _
    | none => exact S.succeed _

theorem typeDefinition : R _ (typeDefinition (m := m)).run (typeDefinition (m := n)).run := by
  refine S.attempt (S.next (S.keyword "type") fun _ => ?_)
  refine S.next (S.orElse S.typeName (S.refuse .expectedTypeName)) fun name => ?_
  refine S.next (S.optional S.typeName) fun target => ?_
  cases target with
  | some target => exact S.succeed _
  | none =>
    refine S.next (S.expect ":" .expectedColon) fun _ => S.next S.bound fun k => ?_
    refine S.next (S.members none k) fun members => ?_
    cases members with
    | nil => exact S.fail
    | cons first others => exact S.succeed _

theorem elements {nested : OptionT m Deconstructor} {nested' : OptionT n Deconstructor}
    (h : R _ nested.run nested'.run) (index k : Nat) :
    R _ (elements nested index k).run (elements nested' index k).run := by
  induction k generalizing index with
  | zero => exact S.succeed _
  | succ k ih =>
    refine S.next (S.optional (S.orElse (S.map _ h)
      (S.map _ S.identifier))) fun r => ?_
    cases r with
    | none => exact S.succeed _
    | some element => exact S.next (ih (index + 1)) fun es => S.succeed _

theorem deconstructorWithin (k : Nat) :
    R _ (deconstructorWithin (m := m) k).run (deconstructorWithin (m := n) k).run := by
  induction k with
  | zero => exact S.fail
  | succ k ih =>
    refine S.attempt (S.next (S.keyword "(") fun _ => S.next S.typeName fun typeName => ?_)
    refine S.next (S.elements ih 0 (k + 1)) fun elements => ?_
    exact S.next (S.expect ")" .expectedCloseParen) fun _ => S.succeed _

theorem deconstructor : R _ (deconstructor (m := m)).run (deconstructor (m := n)).run :=
  S.next S.bound fun k => S.deconstructorWithin k

theorem function : R _ (function (m := m)).run (function (m := n)).run :=
  S.attempt (S.next S.identifier fun _ => S.fail)

theorem declaration : R _ (declaration (m := m)).run (declaration (m := n)).run :=
  S.orElse (S.map _ S.typeDefinition) (S.map _ S.signature)

end Rules

end Simulation

/-! ### Calls -/

/-- The rules of the grammar, by name. -/
inductive Call
  | keyword (text : String)
  | identifier
  | typeName
  | typeExpr
  | signature
  | typeDefinition
  | deconstructor
  | function
  | declaration
deriving DecidableEq, Repr

namespace Call

/-- What a rule returns. -/
def Result : Call → Type
  | keyword _ => Unit
  | identifier => String
  | typeName => String
  | typeExpr => TypeExpr
  | signature => Signature
  | typeDefinition => TypeDefinition
  | deconstructor => Deconstructor
  | function => Signature
  | declaration => Declaration

/-- The rule. -/
def rule : (call : Call) → OptionT m call.Result
  | keyword text => Scanner.keyword text
  | identifier => Scanner.identifier
  | typeName => Scanner.typeName
  | typeExpr => Grammar.typeExpr
  | signature => Grammar.signature
  | typeDefinition => Grammar.typeDefinition
  | deconstructor => Grammar.deconstructor
  | function => Grammar.function
  | declaration => Grammar.declaration

end Call

/-- **What the tokens and sequencing respect, every rule respects.** -/
theorem Simulation.call {R : (α : Type) → m α → n α → Prop} (S : Simulation R) (call : Call) :
    R _ (call.rule (m := m)).run (call.rule (m := n)).run := by
  cases call with
  | keyword text => exact S.keyword text
  | identifier => exact S.identifier
  | typeName => exact S.typeName
  | typeExpr => exact S.typeExpr
  | signature => exact S.signature
  | typeDefinition => exact S.typeDefinition
  | deconstructor => exact S.deconstructor
  | function => exact S.function
  | declaration => exact S.declaration

end DeclLang.Grammar
