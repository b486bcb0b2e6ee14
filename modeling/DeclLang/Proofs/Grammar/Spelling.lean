import DeclLang.Grammar.Rules
import DeclLang.Proofs.Grammar.Progress

/-!
# What is read is all there is

`squeeze` leaves the blanks of a text out, and `spelling` writes a tree without blanks.  A rule that
returns a tree has passed its spelling and blanks, nothing more and nothing else (`Yields`), and a
part of a rule that may fail without the rule failing has passed blanks alone (`Quiet`).  Both are
kept by sequencing and choice, so they are proved rule by rule along the grammar.

The one tree with two spellings is a signature without outputs, which may or may not have its
equality sign (`Declaration.Spelled`).
-/

namespace DeclLang

/-! ### Spellings -/

namespace TypeExpr

/-- A type expression without blanks. -/
def spelling : TypeExpr → List Char
  | plain name => name.toList
  | array element => '[' :: element.toList ++ [']']
  | map key value => '\x7b' :: key.toList ++ ':' :: value.toList ++ ['\x7d']

end TypeExpr

/-- A member without blanks. -/
def Member.spelling (m : Member) : List Char := m.tag.toList ++ m.payload.toList

/-- A type definition without blanks. -/
def TypeDefinition.spelling : TypeDefinition → List Char
  | ofAlias d => "type".toList ++ d.name.toList ++ d.target.toList
  | ofAlgebraic d => "type".toList ++ d.name.toList ++ ':' :: d.members.flatMap Member.spelling

/-- A list of type expressions without blanks. -/
def spellingOf (types : Option (List TypeExpr)) : List Char :=
  (types.getD []).flatMap TypeExpr.spelling

/-- The spellings of a declaration. -/
inductive Declaration.Spelled : Declaration → List Char → Prop
  | type (d : TypeDefinition) : Spelled (.type d) d.spelling
  | function (s : Signature) (equals : List Char) :
      equals = ['='] ∨ equals = [] ∧ s.outputs = none → Spelled (.function s)
        (s.name.toList ++ "::".toList ++ spellingOf s.inputs ++ equals ++ spellingOf s.outputs)

namespace Text

/-- The text without its blanks. -/
def squeeze (cs : List Char) : List Char := cs.filter fun c => !isBlank c

theorem squeeze_append (cs ds : List Char) : squeeze (cs ++ ds) = squeeze cs ++ squeeze ds :=
  List.filter_append cs ds

theorem squeeze_eq_nil {cs : List Char} (h : ∀ c ∈ cs, isBlank c = true) : squeeze cs = [] := by
  rw [squeeze, List.filter_eq_nil_iff]
  intro c hc
  simp [h c hc]

theorem squeeze_eq_self {cs : List Char} (h : ∀ c ∈ cs, isBlank c = false) : squeeze cs = cs := by
  rw [squeeze, List.filter_eq_self]
  intro c hc
  simp [h c hc]

theorem squeeze_of_passes {m m' : Mark} {cs : List Char} (h : m.Passes cs m') :
    squeeze m.rest = squeeze cs ++ squeeze m'.rest := by
  rw [h.1, squeeze_append]

theorem squeeze_skipSpace (m : Mark) : squeeze m.skipSpace.rest = squeeze m.rest := by
  rw [squeeze_of_passes m.skipSpace_passes,
    squeeze_eq_nil fun c hc => List.mem_takeWhile_imp hc, List.nil_append]

end Text

namespace Grammar

open Text Scanner

/-- There is no blank in a token, and a keyword is the one looked for. -/
theorem TokenKind.squeeze_of_find? {kind : TokenKind} {expected token : String} {m m' : Mark}
    (hexpected : squeeze expected.toList = expected.toList)
    (h : kind.find? expected m = some (token, m')) :
    squeeze token.toList = token.toList ∧ (kind = .keyword → token = expected) := by
  have word {first : Char → Bool} (hfirst : ∀ c, first c = true → isNameChar c = true)
      (h : m.word? first isNameChar = some (token, m')) : squeeze token.toList = token.toList :=
    squeeze_eq_self fun d hd => isBlank_eq_false_of_isNameChar
      (isNameChar_of_mem_word hfirst (Mark.isWord_of_word? h).1 d hd)
  cases kind with
  | keyword =>
    obtain ⟨m'', hfound, heq⟩ := Option.map_eq_some_iff.1 h
    cases heq
    exact ⟨hexpected, fun _ => rfl⟩
  | identifier => exact ⟨word (fun _ => isNameChar_of_isVariableStart) h, nofun⟩
  | typeName => exact ⟨word (fun _ => isNameChar_of_isTypeStart) h, nofun⟩

/-! ### Rules that return -/

/-- A result of the rule stands in the text, and nothing beside it is passed but blanks. -/
def Yields {α : Type} (x : OptionT ReadM α) (spelled : α → List Char → Prop) : Prop :=
  ∀ r a r', ReadM.run x.run r = (some a, r') →
    ∃ w, spelled a w ∧ squeeze r.mark.rest = w ++ squeeze r'.mark.rest

/-- The rule cannot fail. -/
def Succeeds {α : Type} (x : OptionT ReadM α) : Prop := ∀ r, (ReadM.run x.run r).1.isSome = true

/-- If the rule fails then it has passed blanks alone. -/
def Quiet {α : Type} (x : OptionT ReadM α) : Prop :=
  ∀ r r', ReadM.run x.run r = (none, r') → squeeze r.mark.rest = squeeze r'.mark.rest

variable {α β : Type} {x y : OptionT ReadM α} {P Q : α → List Char → Prop}

namespace Yields

theorem succeed {a : α} (h : Q a []) : Yields (pure a) Q := by
  intro r a' r' hrun
  cases hrun
  exact ⟨[], h, rfl⟩

theorem fail : Yields (failure : OptionT ReadM α) Q := by
  intro r a r' hrun
  cases hrun

theorem next {f : α → OptionT ReadM β} {Q : β → List Char → Prop} (h : Yields x P)
    (hf : ∀ a w, P a w → Yields (f a) fun b v => Q b (w ++ v)) : Yields (x >>= f) Q := by
  intro r b r'' hrun
  obtain ⟨a, r', hx, hmore⟩ := ReadM.run_next_eq_some_iff.1 hrun
  obtain ⟨w, hw, hsqueeze⟩ := h r a r' hx
  obtain ⟨v, hv, hsqueeze'⟩ := hf a w hw r' b r'' hmore
  exact ⟨w ++ v, hv, by rw [hsqueeze, hsqueeze', List.append_assoc]⟩

theorem mono (h : Yields x P) (hPQ : ∀ a w, P a w → Q a w) : Yields x Q := by
  intro r a r' hrun
  obtain ⟨w, hw, hsqueeze⟩ := h r a r' hrun
  exact ⟨w, hPQ a w hw, hsqueeze⟩

theorem map {f : α → β} {Q : β → List Char → Prop} (h : Yields x P)
    (hf : ∀ a w, P a w → Q (f a) w) : Yields (f <$> x) Q :=
  h.next fun a w hw => .succeed (by simpa using hf a w hw)

theorem orElse (h : Yields x Q) (hx : Quiet x) (hy : Yields y Q) : Yields (x <|> y) Q := by
  intro r a r'' hrun
  rw [ReadM.run_orElse] at hrun
  rcases hrun' : ReadM.run x.run r with ⟨_ | a', r'⟩ <;> rw [hrun'] at hrun
  · -- The blanks that x has passed before it failed do not count.
    obtain ⟨w, hw, hsqueeze⟩ := hy r' a r'' hrun
    exact ⟨w, hw, by rw [hx r r' hrun', hsqueeze]⟩
  · cases hrun
    exact h r _ _ hrun'

theorem attempt (h : Yields x Q) : Yields (attempt x) Q :=
  fun r a r' hrun => h r a r' (ReadM.run_attempt_eq_some_iff.1 hrun)

/-- A token is all that is passed besides blanks. -/
theorem token {kind : TokenKind} {expected : String}
    (hexpected : squeeze expected.toList = expected.toList) :
    Yields (ReadM.token kind expected) fun t w =>
      w = t.toList ∧ (kind = .keyword → t = expected) := by
  intro r t r' hrun
  rw [ReadM.run_token] at hrun
  cases hfound : kind.find? expected r.mark.skipSpace with
  | none => rw [hfound] at hrun; cases hrun
  | some found =>
    rw [hfound] at hrun
    cases hrun
    obtain ⟨hself, hkeyword⟩ := TokenKind.squeeze_of_find? hexpected hfound
    refine ⟨_, ⟨rfl, hkeyword⟩, ?_⟩
    rw [← squeeze_skipSpace, squeeze_of_passes (TokenKind.passes_of_find? hfound), hself]

theorem identifier : Yields (identifier (m := ReadM)) fun name w => w = name.toList :=
  (token rfl).mono fun _ _ h => h.1

theorem typeName : Yields (typeName (m := ReadM)) fun name w => w = name.toList :=
  (token rfl).mono fun _ _ h => h.1

theorem keyword {text : String} (htext : squeeze text.toList = text.toList) :
    Yields (keyword (m := ReadM) text) fun _ w => w = text.toList := by
  refine (token htext).next fun t w h => .succeed ?_
  obtain ⟨rfl, hkeyword⟩ := h
  rw [hkeyword rfl, List.append_nil]

theorem indent : Yields (indent (m := ReadM)) fun _ w => w = [] := by
  intro r width r' hrun
  rw [ReadM.run_indent] at hrun
  cases hindent : r.mark.indent? with
  | none => rw [hindent] at hrun; cases hrun
  | some found =>
    rw [hindent] at hrun
    cases hrun
    obtain ⟨tail, pad, htail, hpad, -, -, -, hpass⟩ := Mark.indent?_eq_some_iff.1 hindent
    refine ⟨[], rfl, ?_⟩
    rw [squeeze_of_passes hpass, squeeze_eq_nil]
    intro c hc
    simp only [List.mem_append, List.mem_cons] at hc
    rcases hc with hc | rfl | hc
    · exact isBlank_of_isLineBlank (htail c hc)
    · decide
    · exact isBlank_of_isPad (hpad c hc)

theorem report (kind : Diagnostic.Kind) :
    Yields (report (m := ReadM) kind) fun _ w => w = [] := by
  intro r a r' hrun
  cases hrun
  exact ⟨[], rfl, rfl⟩

theorem refuse (kind : Diagnostic.Kind) : Yields (refuse kind : OptionT ReadM α) Q :=
  (report kind).next fun _ _ _ => fail

theorem bound : Yields (bound (m := ReadM)) fun _ w => w = [] := by
  intro r a r' hrun
  cases hrun
  exact ⟨[], rfl, rfl⟩

end Yields

/-! ### Rules that fail -/

namespace Succeeds

theorem succeed (a : α) : Succeeds (pure a) := fun _ => rfl

theorem next {f : α → OptionT ReadM β} (hx : Succeeds x) (hf : ∀ a, Succeeds (f a)) :
    Succeeds (x >>= f) := by
  intro r
  have hsome := hx r
  rw [ReadM.run_next]
  rcases hrun : ReadM.run x.run r with ⟨_ | a, r'⟩ <;> rw [hrun] at hsome
  · cases hsome
  · exact hf a r'

theorem orElse (hy : Succeeds y) : Succeeds (x <|> y) := by
  intro r
  rw [ReadM.run_orElse]
  rcases ReadM.run x.run r with ⟨_ | a, r'⟩
  · exact hy r'
  · rfl

theorem many (x : OptionT ReadM α) (k : Nat) : Succeeds (many x k) := by
  induction k with
  | zero => exact succeed []
  | succ k ih =>
    refine next (orElse (succeed none)) fun found => ?_
    cases found with
    | none => exact succeed []
    | some a => exact ih.next fun as => succeed (a :: as)

theorem typeExprs : Succeeds (typeExprs (m := ReadM)) := by
  refine next (x := bound) (fun _ => rfl) fun k => (many typeExpr k).next fun types => ?_
  cases types with
  | nil => exact succeed none
  | cons first others => exact succeed (some (first :: others))

end Succeeds

namespace Quiet

theorem token (kind : TokenKind) (expected : String) : Quiet (ReadM.token kind expected) := by
  intro r r' hrun
  rw [ReadM.run_token] at hrun
  cases hfound : kind.find? expected r.mark.skipSpace with
  | some found => rw [hfound] at hrun; cases hrun
  | none =>
    rw [hfound] at hrun
    cases hrun
    exact (squeeze_skipSpace r.mark).symm

theorem attempt (x : OptionT ReadM α) : Quiet (attempt x) := by
  intro r r' hrun
  rw [ReadM.run_attempt] at hrun
  rcases hx : ReadM.run x.run r with ⟨_ | a, r''⟩ <;> rw [hx] at hrun <;> cases hrun
  rfl

theorem orElse (hx : Quiet x) (hy : Quiet y) : Quiet (x <|> y) := by
  intro r r'' hrun
  rw [ReadM.run_orElse] at hrun
  rcases hrun' : ReadM.run x.run r with ⟨_ | a', r'⟩ <;> rw [hrun'] at hrun
  · exact (hx r r' hrun').trans (hy r' r'' hrun)
  · cases hrun

theorem next {f : α → OptionT ReadM β} (hx : Quiet x) (hf : ∀ a, Succeeds (f a)) :
    Quiet (x >>= f) := by
  intro r r'' hrun
  rw [ReadM.run_next] at hrun
  rcases hrun' : ReadM.run x.run r with ⟨_ | a, r'⟩ <;> rw [hrun'] at hrun
  · cases hrun
    exact hx r _ hrun'
  · have hsome := hf a r'
    simp [hrun] at hsome

theorem map (hx : Quiet x) (f : α → β) : Quiet (f <$> x) :=
  hx.next fun a => .succeed (f a)

theorem keyword (text : String) : Quiet (keyword (m := ReadM) text) :=
  (token .keyword text).map fun _ => ()

theorem typeName : Quiet (typeName (m := ReadM)) := token .typeName ""

end Quiet

/-! ### The rules of the grammar -/

namespace Yields

theorem expect {text : String} (htext : squeeze text.toList = text.toList)
    (kind : Diagnostic.Kind) :
    Yields (expect (m := ReadM) text kind) fun _ w => w = text.toList :=
  (keyword htext).orElse (.keyword text) (refuse kind)

theorem optional (h : Yields x P) (hx : Quiet x) :
    Yields (optional x) fun found w => match found with
      | some a => P a w
      | none => w = [] :=
  Yields.orElse (h.map fun _ _ hw => hw) (hx.map some) (succeed rfl)

/-- A list is spelled element by element. -/
theorem many {spelling : α → List Char} (h : Yields x fun a w => w = spelling a) (hx : Quiet x)
    (k : Nat) : Yields (many x k) fun as w => w = as.flatMap spelling := by
  induction k with
  | zero => exact succeed rfl
  | succ k ih =>
    refine (h.optional hx).next fun found w hw => ?_
    cases found with
    | none => exact succeed (by simpa using hw)
    | some a =>
      refine ih.next fun as v hv => succeed ?_
      rw [hw, hv, List.append_nil, List.flatMap_cons]

theorem arrayType : Yields (arrayType (m := ReadM)) fun t w => w = t.spelling := by
  refine attempt ((keyword rfl).next fun _ _ hopen => ?_)
  refine typeName.next fun element _ helement => ?_
  refine (expect rfl _).next fun _ _ hclose => succeed ?_
  subst hopen helement hclose
  simp [TypeExpr.spelling]

theorem mapType : Yields (mapType (m := ReadM)) fun t w => w = t.spelling := by
  refine attempt ((keyword rfl).next fun _ _ hopen => typeName.next fun key _ hkey => ?_)
  refine (expect rfl _).next fun _ _ hcolon => ?_
  refine (typeName.orElse .typeName (refuse _)).next fun value _ hvalue => ?_
  refine (expect rfl _).next fun _ _ hclose => succeed ?_
  subst hopen hkey hcolon hvalue hclose
  simp [TypeExpr.spelling]

theorem typeExpr : Yields (typeExpr (m := ReadM)) fun t w => w = t.spelling := by
  refine orElse (typeName.map fun _ _ hname => hname) (Quiet.typeName.map _) ?_
  refine orElse arrayType (.attempt _) (orElse mapType (.attempt _) ?_)
  exact (keyword rfl).next fun _ _ hunit => succeed (by rw [hunit]; rfl)

end Yields

theorem Quiet.typeExpr : Quiet (typeExpr (m := ReadM)) :=
  (Quiet.typeName.map _).orElse <| (attempt _).orElse <| (attempt _).orElse <|
    (Quiet.keyword "()").map fun _ => TypeExpr.unit

namespace Yields

theorem typeExprs : Yields (typeExprs (m := ReadM)) fun ts w => w = spellingOf ts := by
  refine bound.next fun k _ hbound => (typeExpr.many .typeExpr k).next fun types _ htypes => ?_
  subst hbound htypes
  cases types with
  | nil => exact succeed rfl
  | cons first others => exact succeed (by simp [spellingOf])

/-- The equality sign may be there without a type behind it. -/
theorem outputs :
    Yields ((do Scanner.keyword "="; Grammar.typeExprs) <|> pure none) fun outputs w =>
      ∃ equals, (equals = ['='] ∨ equals = [] ∧ outputs = none) ∧
        w = equals ++ spellingOf outputs := by
  refine orElse ?_ ((Quiet.keyword "=").next fun _ => .typeExprs) ?_
  · refine (keyword rfl).next fun _ _ hsign => typeExprs.mono fun outputs _ houtputs => ?_
    exact ⟨['='], .inl rfl, by rw [hsign, houtputs]; rfl⟩
  · exact succeed ⟨[], .inr ⟨rfl, rfl⟩, rfl⟩

theorem signature :
    Yields (signature (m := ReadM)) fun s w => Declaration.Spelled (.function s) w := by
  refine attempt (identifier.next fun name _ hname => ?_)
  refine (keyword rfl).next fun _ _ hcolons => typeExprs.next fun inputs _ hinputs => ?_
  refine outputs.next fun outputs _ ⟨equals, hequals, hspelled⟩ => succeed ?_
  subst hname hcolons hinputs hspelled
  have := Declaration.Spelled.function ⟨name, inputs, outputs⟩ equals hequals
  simpa using this

/-- A line is a member, or nothing but its indentation is passed. -/
theorem line (block : Option Nat) :
    Yields (line (m := ReadM) block) fun found w => match found with
      | .member _ member => w = member.spelling
      | _ => w = [] := by
  refine indent.next fun width _ hindent => ?_
  subst hindent
  by_cases deeper : block.any (· < width) = true
  · simp only [deeper, ↓reduceIte]
    exact (report _).next fun _ _ hreport => succeed (by rw [hreport]; rfl)
  simp only [deeper]
  by_cases shallower : block.any (width < ·) = true
  · simp only [shallower, ↓reduceIte]
    exact succeed rfl
  simp only [shallower]
  refine typeName.next fun tag _ htag => typeName.next fun payload _ hpayload => succeed ?_
  subst htag hpayload
  simp [Member.spelling]

theorem members (block : Option Nat) (k : Nat) :
    Yields (members (m := ReadM) block k) fun ms w => w = ms.flatMap Member.spelling := by
  induction k generalizing block with
  | zero => exact succeed rfl
  | succ k ih =>
    refine ((line block).attempt.optional (.attempt _)).next fun found w hw => ?_
    match found with
    | some (.member width member) =>
      refine (ih (some width)).next fun ms v hv => succeed ?_
      rw [hw, hv, List.append_nil, List.flatMap_cons]
    | some .deeper => exact fail
    | some .shallower => exact succeed (by rw [hw]; rfl)
    | none => exact succeed (by rw [hw]; rfl)

theorem typeDefinition : Yields (typeDefinition (m := ReadM)) fun d w => w = d.spelling := by
  refine attempt ((keyword rfl).next fun _ _ htype => ?_)
  refine (typeName.orElse .typeName (refuse _)).next fun name _ hname => ?_
  refine (typeName.optional .typeName).next fun target w htarget => ?_
  cases target with
  | some target =>
    refine succeed ?_
    subst htype hname htarget
    show _ = "type".toList ++ name.toList ++ target.toList
    simp
  | none =>
    refine (expect rfl _).next fun _ _ hcolon => bound.next fun k _ hbound => ?_
    refine (members none k).next fun ms _ hmembers => ?_
    subst htype hname htarget hcolon hbound hmembers
    cases ms with
    | nil => exact fail
    | cons first others =>
      refine succeed ?_
      show _ = "type".toList ++ name.toList ++ ':' :: (first :: others).flatMap Member.spelling
      simp

/-- **A declaration is spelled where it was read.** -/
theorem declaration : Yields (declaration (m := ReadM)) Declaration.Spelled := by
  refine orElse (typeDefinition.map fun d w hw => ?_) (.map (.attempt _) _)
    (signature.map fun s w hw => hw)
  rw [hw]
  exact .type d

end Yields

end Grammar

end DeclLang
