import DeclLang.Proofs.Grammar.AbandonedType
import DeclLang.Proofs.Grammar.Deconstruction
import DeclLang.Proofs.Grammar.MemberBlock
import DeclLang.Proofs.Module.Printing
import DeclLang.Tree.Node

/-!
# Trees that are read

Whatever tree the grammar returns is well-formed, on whatever text and by way of whatever memo
table: a name is in it only if a token with this name was found, a list of types that is empty is
left out, and a block without members is no type definition.  `Returns` says of the result of a rule
what is known of it, whatever was passed on the way or given up, and is put together along the
grammar.

So the declarations of a text that is accepted can be printed and read again, although the text may
have had any layout (`wellFormed_of_parsing`).
-/

namespace DeclLang

open Text

/-! ### Well-formed trees -/

namespace TypeExpr

/-- The answers about a type expression fit together. -/
structure Normal (t : TypeExpr) : Prop where
  /-- It has one form. -/
  form : ¬ (t.isArray = true ∧ t.isMap = true)
  key : t.key?.isSome = true ↔ t.isMap = true
  value : t.value?.isSome = true ↔ t.isMap = true
  /-- A map is known by its key. -/
  name : t.isMap = true → t.key? = some t.name
  unit : t.isUnit = true ↔ t.name = unitName

theorem ne_unitName {name : String} (h : isWord isTypeStart name = true) : name ≠ unitName := by
  rintro rfl
  exact absurd h (by decide)

theorem WellFormed.normal {t : TypeExpr} (h : t.WellFormed) : t.Normal := by
  cases t with
  | plain name => exact ⟨nofun, ⟨nofun, nofun⟩, ⟨nofun, nofun⟩, nofun, beq_iff_eq⟩
  | array element =>
    exact ⟨nofun, ⟨nofun, nofun⟩, ⟨nofun, nofun⟩, nofun,
      ⟨nofun, fun hunit => absurd hunit (ne_unitName h)⟩⟩
  | map key value =>
    exact ⟨nofun, ⟨fun _ => rfl, fun _ => rfl⟩, ⟨fun _ => rfl, fun _ => rfl⟩, fun _ => rfl,
      ⟨nofun, fun hunit => absurd hunit (ne_unitName h.1)⟩⟩

theorem Spelled.wellFormed {t : TypeExpr} {text : List Char} (h : t.Spelled text) :
    t.WellFormed := by
  cases h with
  | plain _ hname => exact .inr hname
  | array _ _ hname => exact hname
  | map _ _ hkey _ _ hvalue => exact ⟨hkey, hvalue⟩
  | unit => exact .inl rfl

end TypeExpr

namespace Deconstructor

mutual

/-- A variable is bound to a name of a variable, and a nested deconstructor is one. -/
def Element.WellFormed : Element → Prop
  | .binding _ name => isWord isVariableStart name = true
  | .nested typeName elements => isWord isTypeStart typeName = true ∧ AllWellFormed elements

/-- All elements of a list are well-formed. -/
def AllWellFormed : List Element → Prop
  | [] => True
  | e :: es => e.WellFormed ∧ AllWellFormed es

end

/-- All names in it are of the right kind, at every depth. -/
def WellFormed (d : Deconstructor) : Prop :=
  isWord isTypeStart d.typeName = true ∧ AllWellFormed d.elements

mutual

theorem Spelled.wellFormed {d : Deconstructor} {text : List Char} :
    d.Spelled text → d.WellFormed
  | .parentheses _ _ hname _ hbody => ⟨hname, hbody.wellFormed⟩

theorem ElementsSpelled.wellFormed {index : Nat} {es : List Element} {text : List Char} :
    ElementsSpelled index es text → AllWellFormed es
  | .close _ => trivial
  | .binding _ hname _ hmore => ⟨hname, hmore.wellFormed⟩
  | .nested htext hmore => ⟨htext.wellFormed, hmore.wellFormed⟩

end

end Deconstructor

namespace Node

/-- The type expressions in a tree. -/
def typeExprs : Node → List TypeExpr
  | ofSignature s => s.inputs.getD [] ++ s.outputs.getD []
  | ofTypeExpr t => [t]
  | _ => []

/-- All names in it are of the right kind, no list in it is empty, and its type expressions are in
normal form. -/
structure WellFormed (n : Node) : Prop where
  names : match n with
    | ofAlias d => (TypeDefinition.ofAlias d).WellFormed
    | ofAlgebraic d => (TypeDefinition.ofAlgebraic d).WellFormed
    | ofSignature s => s.WellFormed
    | ofTypeExpr t => t.WellFormed
    | ofDeconstructor d => d.WellFormed
  normal : ∀ t ∈ n.typeExprs, t.Normal

theorem wellFormed_ofTypeExpr {t : TypeExpr} (h : t.WellFormed) : (ofTypeExpr t).WellFormed :=
  ⟨h, List.forall_mem_singleton.2 h.normal⟩

theorem wellFormed_ofTypeDefinition {d : TypeDefinition} (h : d.WellFormed) :
    (ofTypeDefinition d).WellFormed := by
  cases d <;> exact ⟨h, nofun⟩

theorem wellFormed_ofSignature {s : Signature} (h : s.WellFormed) :
    (ofSignature s).WellFormed := by
  refine ⟨h, fun t ht => TypeExpr.WellFormed.normal ?_⟩
  obtain ⟨-, hinputs, houtputs⟩ := h
  rcases List.mem_append.1 ht with ht | ht
  · exact hinputs.2 t ht
  · exact houtputs.2 t ht

theorem wellFormed_ofDeclaration {d : Declaration} (h : d.WellFormed) :
    (ofDeclaration d).WellFormed := by
  cases d with
  | type d => exact wellFormed_ofTypeDefinition h
  | function s => exact wellFormed_ofSignature h

end Node

namespace Grammar

open Scanner

/-! ### Results of rules -/

/-- What a rule returns is of a kind. -/
def Returns {α : Type} (x : OptionT ReadM α) (P : α → Prop) : Prop :=
  ∀ r a r', ReadM.run x.run r = (some a, r') → P a

namespace Returns

variable {α β : Type} {x y : OptionT ReadM α} {P : α → Prop} {Q : β → Prop}

theorem of_covers {R : α → List Char → List Char → Prop} (h : Covers x R)
    (hP : ∀ a text rest, R a text rest → P a) : Returns x P := by
  intro r a r' hrun
  obtain ⟨text, -, htext⟩ := h r a r' hrun
  exact hP a text _ htext

theorem succeed {a : α} (h : P a) : Returns (pure a) P := by
  intro r a' r' hrun
  cases hrun
  exact h

theorem fail : Returns (failure : OptionT ReadM α) P := by
  intro r a r' hrun
  cases hrun

theorem next {f : α → OptionT ReadM β} (h : Returns x P) (hf : ∀ a, P a → Returns (f a) Q) :
    Returns (x >>= f) Q := by
  intro r b r'' hrun
  obtain ⟨a, r', hx, hmore⟩ := ReadM.run_next_eq_some_iff.1 hrun
  exact hf a (h r a r' hx) r' b r'' hmore

/-- Nothing need be known of what comes first. -/
theorem behind {f : α → OptionT ReadM β} (hf : ∀ a, Returns (f a) Q) : Returns (x >>= f) Q :=
  next (P := fun _ => True) (fun _ _ _ _ => trivial) fun a _ => hf a

theorem map {f : α → β} (h : Returns x P) (hf : ∀ a, P a → Q (f a)) : Returns (f <$> x) Q :=
  h.next fun a ha => succeed (hf a ha)

theorem orElse (hx : Returns x P) (hy : Returns y P) : Returns (x <|> y) P := by
  intro r a r'' hrun
  rw [ReadM.run_orElse] at hrun
  rcases hx' : ReadM.run x.run r with ⟨_ | a', r'⟩ <;> rw [hx'] at hrun
  · exact hy r' a r'' hrun
  · cases hrun
    exact hx r _ _ hx'

theorem refuse (kind : Diagnostic.Kind) : Returns (refuse kind : OptionT ReadM α) P :=
  behind fun _ => fail

theorem attempt (h : Returns x P) : Returns (attempt x) P :=
  fun r a r' hrun => h r a r' (ReadM.run_attempt_eq_some_iff.1 hrun)

theorem optional (h : Returns x P) : Returns (optional x) fun found => ∀ a ∈ found, P a :=
  orElse (h.map fun _ ha _ hb => Option.mem_some.1 hb ▸ ha) (succeed nofun)

theorem many (h : Returns x P) (k : Nat) : Returns (many x k) fun as => ∀ a ∈ as, P a := by
  induction k with
  | zero => exact succeed nofun
  | succ k ih =>
    refine h.optional.next fun found hfound => ?_
    cases found with
    | none => exact succeed nofun
    | some a =>
      exact ih.next fun as has => succeed (List.forall_mem_cons.2 ⟨hfound a rfl, has⟩)

/-! ### The rules of the grammar -/

theorem identifier : Returns identifier fun name => isWord isVariableStart name = true :=
  of_covers Covers.identifier fun _ _ _ ⟨_, _, _, hname, _⟩ => hname

theorem typeName : Returns typeName fun name => isWord isTypeStart name = true :=
  of_covers Covers.typeName fun _ _ _ ⟨_, _, _, hname, _⟩ => hname

theorem typeExpr : Returns typeExpr TypeExpr.WellFormed :=
  of_covers Covers.typeExpr fun _ _ _ ht => ht.wellFormed

theorem typeExprs : Returns typeExprs Signature.TypesWellFormed := by
  refine behind fun k => (typeExpr.many k).next fun types htypes => ?_
  cases types with
  | nil => exact succeed ⟨nofun, nofun⟩
  | cons t ts => exact succeed ⟨nofun, htypes⟩

theorem signature : Returns signature Signature.WellFormed := by
  refine attempt (identifier.next fun name hname => behind fun _ => ?_)
  refine typeExprs.next fun inputs hinputs => ?_
  have hsign : Returns (do keyword "="; Grammar.typeExprs : OptionT ReadM _)
      Signature.TypesWellFormed := behind fun _ => typeExprs
  have habsent : Returns (pure none : OptionT ReadM _) Signature.TypesWellFormed :=
    succeed ⟨nofun, nofun⟩
  exact (hsign.orElse habsent).next fun outputs houtputs => succeed ⟨hname, hinputs, houtputs⟩

theorem members (block : Option Nat) (k : Nat) :
    Returns (members block k) fun ms => ∀ m ∈ ms, m.WellFormed := by
  refine of_covers (Covers.members block k) fun ms text rest hms m hm => ?_
  obtain ⟨width, -, lines, trailing, rfl, -⟩ := hms
  obtain ⟨l, -, rfl⟩ := List.mem_map.1 hm
  exact ⟨l.isWord_tag, l.isWord_payload⟩

theorem typeDefinition : Returns typeDefinition TypeDefinition.WellFormed := by
  refine attempt (behind fun _ => (typeName.orElse (refuse _)).next fun name hname => ?_)
  refine typeName.optional.next fun target htarget => ?_
  cases target with
  | some target => exact succeed ⟨hname, htarget target rfl⟩
  | none =>
    refine behind fun _ => behind fun k => (members none k).next fun ms hms => ?_
    cases ms with
    | nil => exact fail
    | cons m ms => exact succeed ⟨hname, nofun, hms⟩

theorem deconstructor : Returns deconstructor Deconstructor.WellFormed :=
  behind fun k => of_covers (Covers.deconstructorWithin k) fun _ _ _ hd => hd.wellFormed

theorem declaration : Returns declaration Declaration.WellFormed :=
  orElse (typeDefinition.map fun _ hd => hd) (signature.map fun _ hs => hs)

end Returns

/-- The tree is well-formed, or the token is a name of the kind that was asked for. -/
def Call.WellFormed : (call : Call) → call.Result → Prop
  | keyword _, _ => True
  | identifier, name => isWord isVariableStart name = true
  | typeName, name => isWord isTypeStart name = true
  | typeExpr, t => (Node.ofTypeExpr t).WellFormed
  | signature, s => (Node.ofSignature s).WellFormed
  | typeDefinition, d => (Node.ofTypeDefinition d).WellFormed
  | deconstructor, d => (Node.ofDeconstructor d).WellFormed
  | function, s => (Node.ofSignature s).WellFormed
  | declaration, d => (Node.ofDeclaration d).WellFormed

theorem Returns.call (call : Call) : Returns call.rule call.WellFormed := by
  cases call with
  | keyword text => exact fun _ _ _ _ => trivial
  | identifier => exact identifier
  | typeName => exact typeName
  | typeExpr =>
    exact fun r t r' hrun => Node.wellFormed_ofTypeExpr (typeExpr r t r' hrun)
  | signature => exact fun r s r' hrun => Node.wellFormed_ofSignature (signature r s r' hrun)
  | typeDefinition =>
    exact fun r d r' hrun => Node.wellFormed_ofTypeDefinition (typeDefinition r d r' hrun)
  | deconstructor => exact fun r d r' hrun => ⟨deconstructor r d r' hrun, nofun⟩
  | function => exact attempt (behind fun _ => fail)
  | declaration =>
    exact fun r d r' hrun => Node.wellFormed_ofDeclaration (declaration r d r' hrun)

end Grammar

open Grammar

/-- The declarations of a text are well-formed. -/
theorem Declares.wellFormed {filename : String} {m : Mark}
    {parts : List (Declaration × List Diagnostic)} (h : Declares filename m parts) :
    ∀ d ∈ parts.map Prod.fst, d.WellFormed := by
  induction h with
  | nil => nofun
  | cons _ hrun _ ih => exact List.forall_mem_cons.2 ⟨Returns.declaration _ _ _ hrun, ih⟩

/-- **Every tree that is read is well-formed and in normal form.**  So is whatever a rule returns
for a parser that has seen anything before, wherever its cursor is, and so is every declaration of
a text that is accepted.  These declarations are read again when they are printed, all of them and
in their order. -/
theorem wellFormed_of_parsing :
    (∀ {parser : Parser} {c : Cursor}, parser.Reached → c.mark.Fits c.source.text →
      ∀ call : Call, ∃ result after, parser.run c call.rule = .ok (result, after) ∧
        ∀ a ∈ result, call.WellFormed a) ∧
    ∀ {text filename : String} {module : Module}, Module.parse text filename = .ok module →
      (∀ d ∈ module.declarations, (Node.ofDeclaration d).WellFormed) ∧
      ∀ filename', ∃ diagnostics, Module.parse (Module.print module.declarations) filename' =
        .ok ⟨filename', module.declarations, diagnostics⟩ := by
  constructor
  · intro parser c h hc call
    obtain ⟨after, hrun, -⟩ := h.run_call hc call
    exact ⟨_, after, hrun, fun a ha => Returns.call call _ a _ (Prod.ext ha rfl)⟩
  · intro text filename module h
    obtain ⟨parts, hparts, rfl⟩ := Module.parse_eq_ok_iff.1 h
    have hds := hparts.wellFormed
    refine ⟨fun d hd => Node.wellFormed_ofDeclaration (hds d hd), fun filename' => ?_⟩
    have hprint : unblank (Mark.start (Module.print (parts.map Prod.fst))).rest =
        (parts.map Prod.fst).flatMap Declaration.print := by
      rw [Mark.start, Module.print, String.toList_ofList, (follows_print hds).unblank_eq]
    obtain ⟨parts', hparts', hsame⟩ := declares_print hds filename' hprint
    exact ⟨_, Module.parse_eq_ok_iff.2 ⟨parts', hparts', by rw [hsame]⟩⟩

/-- A payload on the line below its tag, blanks in a map and a sign with nothing behind it.  And the
variables of a deconstructor are names at every depth. -/
theorem wellFormed_of_parsing_layout : ∃ module,
    Module.parse "type  T :\n\t I  Int\n\t F\nString f::[A] \x7b A:B \x7d()=\ntype U T" "f" =
      .ok module ∧
    module.declarations = [.type (.ofAlgebraic ⟨"T", [⟨"I", "Int"⟩, ⟨"F", "String"⟩]⟩),
      .function ⟨"f", some [.array "A", .map "A" "B", .unit], none⟩, .type (.ofAlias ⟨"U", "T"⟩)] ∧
    (∀ d ∈ module.declarations, (Node.ofDeclaration d).WellFormed) ∧
    (∃ diagnostics, Module.parse (Module.print module.declarations) "g" =
      .ok ⟨"g", module.declarations, diagnostics⟩) ∧
    ∃ (d : Deconstructor) (after : Parsing),
      Parser.empty.run (.start ⟨0, "(P a(Q b))"⟩ "f") deconstructor = .ok (some d, after) ∧
        d.WellFormed := by
  have hmodule : (Module.parse
      "type  T :\n\t I  Int\n\t F\nString f::[A] \x7b A:B \x7d()=\ntype U T" "f").toOption.map
        Module.declarations = some [.type (.ofAlgebraic ⟨"T", [⟨"I", "Int"⟩, ⟨"F", "String"⟩]⟩),
          .function ⟨"f", some [.array "A", .map "A" "B", .unit], none⟩,
          .type (.ofAlias ⟨"U", "T"⟩)] := by decide +kernel
  have hpattern : (Parser.empty.run (.start ⟨0, "(P a(Q b))"⟩ "f")
      Call.deconstructor.rule).toOption.map (fun s => s.1.isSome) = some true := by decide +kernel
  obtain ⟨result, after, hrun, hresult⟩ :=
    wellFormed_of_parsing.1 (c := .start ⟨0, "(P a(Q b))"⟩ "f") .empty (.start _) .deconstructor
  rw [hrun] at hpattern
  obtain ⟨d, rfl⟩ := Option.isSome_iff_exists.1 (Option.some.inj hpattern)
  cases hparse : Module.parse
      "type  T :\n\t I  Int\n\t F\nString f::[A] \x7b A:B \x7d()=\ntype U T" "f" with
  | error e => rw [hparse] at hmodule; cases hmodule
  | ok module =>
    rw [hparse] at hmodule
    obtain ⟨hds, hprint⟩ := wellFormed_of_parsing.2 hparse
    exact ⟨module, rfl, Option.some.inj hmodule, hds, hprint "g", d, after, hrun,
      (hresult d rfl).names⟩

end DeclLang
