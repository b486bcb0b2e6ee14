import DeclLang.Proofs.Grammar.Coverage
import DeclLang.Proofs.Grammar.Diagnostics
import DeclLang.Proofs.Grammar.Outcome
import DeclLang.Proofs.Grammar.Position

/-!
# Where signatures end

A signature is decided by its name and colons.  The lists of types behind them cannot fail; each
ends with an attempt at one more type that does.  All of the list before that attempt has recorded
nothing, so whatever is recorded when a list has ended is what the same attempt records once more
when it is made where the list has ended (`Ended`).

A bracket that was opened and not closed is the one thing that such an attempt records, and the
reader stands before that bracket then.  The sign does not stand there, so if it is the list of the
inputs that has ended so, there are no outputs.
-/

namespace DeclLang

open Text

/-! ### Texts of type expressions -/

/-- The text is a type expression, with blanks before each of its tokens. -/
inductive TypeExpr.Spelled : TypeExpr → List Char → Prop
  | plain {name : String} {gap : List Char} : Gap gap → isWord isTypeStart name = true →
      Spelled (.plain name) (gap ++ name.toList)
  | array {element : String} {gap gap₁ gap₂ : List Char} : Gap gap → Gap gap₁ →
      isWord isTypeStart element = true → Gap gap₂ →
      Spelled (.array element) (gap ++ '[' :: (gap₁ ++ (element.toList ++ (gap₂ ++ [']']))))
  | map {key value : String} {gap gap₁ gap₂ gap₃ gap₄ : List Char} : Gap gap → Gap gap₁ →
      isWord isTypeStart key = true → Gap gap₂ → Gap gap₃ → isWord isTypeStart value = true →
      Gap gap₄ → Spelled (.map key value) (gap ++ '\x7b' :: (gap₁ ++ (key.toList ++ (gap₂ ++
        ':' :: (gap₃ ++ (value.toList ++ (gap₄ ++ ['\x7d'])))))))
  | unit {gap : List Char} : Gap gap → Spelled .unit (gap ++ ['(', ')'])

theorem TypeExpr.Spelled.ne_nil {t : TypeExpr} {text : List Char} (h : t.Spelled text) :
    text ≠ [] := by
  cases h with
  | plain _ hname => simp [toList_ne_nil_of_isWord hname]
  | array => simp
  | map => simp
  | unit => simp

/-- There may be more blanks. -/
theorem TypeExpr.Spelled.gap {t : TypeExpr} {text before : List Char} (h : t.Spelled text)
    (hbefore : Gap before) : t.Spelled (before ++ text) := by
  cases h with
  | plain hgap hname =>
    rw [← List.append_assoc]
    exact .plain (hbefore.append hgap) hname
  | array hgap hgap₁ hname hgap₂ =>
    rw [← List.append_assoc]
    exact .array (hbefore.append hgap) hgap₁ hname hgap₂
  | map hgap hgap₁ hkey hgap₂ hgap₃ hvalue hgap₄ =>
    rw [← List.append_assoc]
    exact .map (hbefore.append hgap) hgap₁ hkey hgap₂ hgap₃ hvalue hgap₄
  | unit hgap =>
    rw [← List.append_assoc]
    exact .unit (hbefore.append hgap)

/-- The text begins as signatures do, with a name and two colons.  The name is the longest one,
since neither a blank nor a colon belongs to it. -/
def Signature.Begins (cs : List Char) : Prop :=
  ∃ (gap gap' : List Char) (name : String) (more : List Char), Gap gap ∧ Gap gap' ∧
    isWord isVariableStart name = true ∧ cs = gap ++ (name.toList ++ (gap' ++ ':' :: ':' :: more))

namespace Grammar

open Scanner

namespace Covers

theorem arrayType : Covers (arrayType (m := ReadM)) fun t text _ => t.Spelled text := by
  refine attempt ((keyword "[").next fun _ => typeName.next fun element => ?_)
  refine (expect "]" _).next fun _ => succeed fun rest close hclose name hname before hbefore => ?_
  obtain ⟨gap, hgap, rfl⟩ := hbefore
  obtain ⟨gap₁, hgap₁, rfl, hword, -⟩ := hname
  obtain ⟨gap₂, hgap₂, rfl⟩ := hclose
  simpa using TypeExpr.Spelled.array hgap hgap₁ hword hgap₂

theorem mapType : Covers (mapType (m := ReadM)) fun t text _ => t.Spelled text := by
  refine attempt ((keyword "\x7b").next fun _ => typeName.next fun key => ?_)
  refine (expect ":" _).next fun _ => ?_
  have hvalue : Covers (Scanner.typeName <|> Grammar.refuse .expectedTypeName)
      (IsName isTypeStart) := typeName.orElse Idle.typeName (refuse _)
  refine hvalue.next fun value => (expect "\x7d" _).next fun _ => succeed fun rest close hclose
    name' hname' colon hcolon name hname before hbefore => ?_
  obtain ⟨gap, hgap, rfl⟩ := hbefore
  obtain ⟨gap₁, hgap₁, rfl, hkey, -⟩ := hname
  obtain ⟨gap₂, hgap₂, rfl⟩ := hcolon
  obtain ⟨gap₃, hgap₃, rfl, hvalue, -⟩ := hname'
  obtain ⟨gap₄, hgap₄, rfl⟩ := hclose
  simpa using TypeExpr.Spelled.map hgap hgap₁ hkey hgap₂ hgap₃ hvalue hgap₄

theorem typeExpr : Covers (typeExpr (m := ReadM)) fun t text _ => t.Spelled text := by
  have hunit : Covers (do Scanner.keyword "()"; return TypeExpr.unit : OptionT ReadM TypeExpr)
      fun t text _ => t.Spelled text := by
    refine (keyword "()").next fun _ => succeed fun rest before hbefore => ?_
    obtain ⟨gap, hgap, rfl⟩ := hbefore
    simpa using TypeExpr.Spelled.unit hgap
  have more {x : OptionT ReadM TypeExpr} (hx : Covers x fun t text _ => t.Spelled text) :
      Covers x fun t text _ => ∀ gap, Gap gap → t.Spelled (gap ++ text) :=
    hx.mono fun t text _ ht gap hgap => ht.gap hgap
  have hplain : Covers (TypeExpr.plain <$> Scanner.typeName : OptionT ReadM TypeExpr)
      fun t text _ => t.Spelled text := by
    refine typeName.map fun name text rest hname => ?_
    obtain ⟨gap, hgap, rfl, hword, -⟩ := hname
    exact .plain hgap hword
  exact hplain.orElse (Idle.typeName.map _)
    (more (arrayType.orElse (Idle.attempt _) (more (mapType.orElse (Idle.attempt _) (more hunit)))))

end Covers

/-! ### Where a list of types ends -/

variable {r r' : Reading}

/-- Passing the blanks first makes no difference. -/
theorem run_typeExpr_skipSpace (r : Reading) :
    ReadM.run typeExpr.run { r with mark := r.mark.skipSpace } = ReadM.run typeExpr.run r := by
  rw [run_typeExpr, run_typeExpr]
  simp only [Mark.skipSpace_skipSpace]

/-- One more type is not here, and the attempt at it records what the reader has recorded. -/
def Ended (r : Reading) : Prop :=
  ReadM.run typeExpr.run { r with recorded := [] } = (none, r)

namespace Ended

/-- An attempt that fails can be made again where it has left the reader. -/
theorem of_run (hr : r.recorded = []) (hrun : ReadM.run typeExpr.run r = (none, r')) :
    Ended r' := by
  obtain ⟨-, -, -, hname, -⟩ := advances.typeExpr.2 r
  rw [hrun] at hname
  have hagain : ({ r' with recorded := [] } : Reading) = { r with mark := r.mark.skipSpace } := by
    rw [mark_of_typeExpr_none hrun, hname, hr]
  rw [Ended, hagain, run_typeExpr_skipSpace, hrun]

theorem stops (h : Ended r) : Stops isBlank r.mark.rest := by
  rw [mark_of_typeExpr_none h]
  exact Mark.stops_skipSpace _

/-- What is recorded is about the bracket that comes next. -/
theorem recorded (h : Ended r) : r.recorded = [] ∨ ∃ d, r.recorded = [d] ∧
    r.mark.place.offset < d.location.place.offset ∧
      ∃ c ∈ r.mark.rest.head?, c = '[' ∨ c = '{' := by
  rcases (Halting.typeExpr _ _).2 h with hnil | ⟨d, hd, -, hlt, hbracket⟩
  · exact .inl hnil
  · exact .inr ⟨d, hd, hlt, hbracket⟩

theorem many {k : Nat} {types : List TypeExpr} (hk : r.mark.rest.length < k)
    (hr : r.recorded = []) (hrun : ReadM.run (many typeExpr k).run r = (some types, r')) :
    Ended r' := by
  induction k generalizing r types with
  | zero => omega
  | succ k ih =>
    rw [many_succ, ReadM.run_next, ReadM.run_optional] at hrun
    rcases ht : ReadM.run Grammar.typeExpr.run r with ⟨_ | t, r₁⟩ <;> rw [ht] at hrun
    · cases hrun
      exact of_run hr ht
    · obtain ⟨ts, r₂, hmany, hmore⟩ := ReadM.run_next_eq_some_iff.1 hrun
      cases hmore
      -- A type takes at least one character and records nothing.
      obtain ⟨text, hpass, hspelled⟩ := Covers.typeExpr r t r₁ ht
      have hlength := congrArg List.length hpass.1
      have hpos := List.length_pos_iff.2 hspelled.ne_nil
      rw [List.length_append] at hlength
      exact ih (by omega) (((Halting.typeExpr r r₁).1 t ht).trans hr) hmany

theorem typeExprs {types : Option (List TypeExpr)} (hr : r.recorded = [])
    (hrun : ReadM.run typeExprs.run r = (some types, r')) : types ≠ some [] ∧ Ended r' := by
  rw [Grammar.typeExprs, ReadM.run_next_eq_some_iff] at hrun
  obtain ⟨k, _, hbound, hrun⟩ := hrun
  cases hbound
  obtain ⟨ts, r₁, hmany, hmore⟩ := ReadM.run_next_eq_some_iff.1 hrun
  have hended := many (Nat.lt_succ_self _) hr hmany
  cases ts <;> cases hmore
  · exact ⟨nofun, hended⟩
  · exact ⟨nofun, hended⟩

end Ended

/-! ### Signatures -/

/-- The part of a signature that comes before the sign. -/
def signatureInputs {m : Type → Type} [Monad m] [Scanner m] :
    OptionT m (String × Option (List TypeExpr)) := do
  let name ← identifier
  keyword "::"
  let inputs ← typeExprs
  return (name, inputs)

theorem Simulation.signatureInputs {m n : Type → Type} [Monad m] [Monad n] [Scanner m] [Scanner n]
    {R : (α : Type) → m α → n α → Prop} (S : Simulation R) :
    R _ (signatureInputs (m := m)).run (signatureInputs (m := n)).run :=
  S.next S.identifier fun name => S.next (S.keyword "::") fun _ =>
    S.next S.typeExprs fun inputs => S.succeed (name, inputs)

/-- The types behind the sign, if it is there. -/
def signatureOutputs {m : Type → Type} [Monad m] [Scanner m] :
    OptionT m (Option (List TypeExpr)) :=
  (do keyword "="; typeExprs) <|> pure none

theorem signature_eq : signature (m := ReadM) = attempt do
    let (name, inputs) ← signatureInputs
    let outputs ← signatureOutputs
    return { name, inputs, outputs } := by
  simp only [signature, signatureInputs, signatureOutputs, bind_assoc, pure_bind]

/-- A signature begins at a mark if its name and its colons are there. -/
theorem begins_signature_iff {m : Mark} : Signature.Begins m.rest ↔ ∃ name m' m'',
    m.skipSpace.word? isVariableStart isNameChar = some (name, m') ∧
      m'.skipSpace.literal? "::".toList = some m'' := by
  constructor
  · rintro ⟨gap, gap', name, more, hgap, hgap', hname, hrest⟩
    have hspace : m.skipSpace.rest = name.toList ++ (gap' ++ ':' :: ':' :: more) := by
      rw [Mark.skipSpace_eq hrest hgap (stops_identifier hname _)]
    have hbehind : Stops isNameChar (gap' ++ ':' :: ':' :: more) := by
      cases gap' with
      | nil => exact stops_cons.2 (by decide)
      | cons c gap' => exact hgap'.stops_isNameChar (List.cons_ne_nil c gap') _
    obtain ⟨m', hfound, hm'⟩ := Reads.exists_word? hname hspace hbehind
    have hcolons : m'.skipSpace.rest = "::".toList ++ more := by
      rw [Mark.skipSpace_eq hm' hgap' (stops_cons.2 (by decide))]
      rfl
    exact ⟨name, m', _, hfound, Mark.literal?_eq_some_iff.2 (Mark.passes_of_rest_eq hcolons)⟩
  · rintro ⟨name, m', m'', hname, hcolons⟩
    obtain ⟨c, cs, rfl, -, -, -, hpass⟩ := Mark.word?_eq_some_iff.1 hname
    refine ⟨_, _, String.ofList (c :: cs), m''.rest, m.gap_skipSpace, m'.gap_skipSpace,
      (Mark.isWord_of_word? hname).1, ?_⟩
    have hall := ((m.skipSpace_passes.trans hpass).trans m'.skipSpace_passes).trans
      (Mark.literal?_eq_some_iff.1 hcolons)
    simpa using hall.1

/-- Where no signature begins, nothing is recorded. -/
theorem run_signatureInputs_of_not_begins (h : ¬ Signature.Begins r.mark.rest) :
    ∃ m, ReadM.run signatureInputs.run r = (none, { r with mark := m }) := by
  rw [signatureInputs, ReadM.run_next, ReadM.run_identifier]
  cases hname : r.mark.skipSpace.word? isVariableStart isNameChar with
  | none => exact ⟨_, rfl⟩
  | some name =>
    simp only
    rw [ReadM.run_next, ReadM.run_keyword]
    cases hcolons : name.2.skipSpace.literal? "::".toList with
    | none => exact ⟨_, rfl⟩
    | some m => exact absurd (begins_signature_iff.2 ⟨name.1, name.2, m, hname, hcolons⟩) h

theorem run_signatureInputs (hr : r.recorded = [])
    {found : Option (String × Option (List TypeExpr))}
    (hrun : ReadM.run signatureInputs.run r = (found, r')) :
    (found.isSome = true ↔ Signature.Begins r.mark.rest) ∧ (found = none → r'.recorded = []) ∧
      ∀ head ∈ found, head.2 ≠ some [] ∧ Ended r' := by
  by_cases hbegins : Signature.Begins r.mark.rest
  swap
  · obtain ⟨m, hnone⟩ := run_signatureInputs_of_not_begins hbegins
    rw [hnone] at hrun
    cases hrun
    exact ⟨by simp [hbegins], fun _ => hr, nofun⟩
  obtain ⟨name, m', m, hname, hcolons⟩ := begins_signature_iff.1 hbegins
  rw [signatureInputs, ReadM.run_next, ReadM.run_identifier, hname] at hrun
  simp only at hrun
  rw [ReadM.run_next, ReadM.run_keyword, hcolons] at hrun
  simp only at hrun
  have hsome := Succeeds.typeExprs { r with mark := m }
  rw [ReadM.run_next] at hrun
  rcases htypes : ReadM.run typeExprs.run { r with mark := m } with ⟨_ | inputs, r₁⟩ <;>
    rw [htypes] at hrun hsome
  · cases hsome
  · cases hrun
    obtain ⟨hne, hended⟩ := Ended.typeExprs (r := { r with mark := m }) hr htypes
    refine ⟨by simp [hbegins], nofun, fun head hhead => ?_⟩
    cases hhead
    exact ⟨hne, hended⟩

theorem run_signatureOutputs (hended : Ended r) {outputs : Option (List TypeExpr)}
    (hrun : ReadM.run signatureOutputs.run r = (some outputs, r')) :
    outputs ≠ some [] ∧ Ended r' ∧ (r.recorded ≠ [] → outputs = none) := by
  rw [signatureOutputs, ReadM.run_orElse, ReadM.run_next, ReadM.run_keyword,
    Mark.skipSpace_eq_self hended.stops] at hrun
  cases hsign : r.mark.literal? "=".toList with
  | none =>
    rw [hsign] at hrun
    cases hrun
    exact ⟨nofun, hended, fun _ => rfl⟩
  | some m =>
    -- Where the sign stands no bracket does, so the types before it have recorded nothing.
    have hr : r.recorded = [] := by
      rcases hended.recorded with hnil | ⟨d, -, -, c, hc, hbracket⟩
      · exact hnil
      · rw [(Mark.literal?_eq_some_iff.1 hsign).1] at hc
        cases hc
        rcases hbracket with h | h <;> exact absurd h (by decide)
    rw [hsign] at hrun
    simp only at hrun
    rcases htypes : ReadM.run typeExprs.run { r with mark := m } with ⟨_ | types, r₁⟩ <;>
      rw [htypes] at hrun
    · have hsome := Succeeds.typeExprs { r with mark := m }
      rw [htypes] at hsome
      cases hsome
    · cases hrun
      obtain ⟨hne, hended'⟩ := Ended.typeExprs (r := { r with mark := m }) hr htypes
      exact ⟨hne, hended', fun hne => absurd hr hne⟩

/-- A signature from the part before the sign and the part behind it. -/
theorem run_signature_parts (hr : r.recorded = []) {found : Option Signature}
    (hrun : ReadM.run signature.run r = (found, r')) :
    (found.isSome = true ↔ Signature.Begins r.mark.rest) ∧ (found = none → r'.recorded = []) ∧
      ∀ s ∈ found, s.inputs ≠ some [] ∧ s.outputs ≠ some [] ∧ Ended r' ∧
        ∃ r₁, ReadM.run signatureInputs.run r = (some (s.name, s.inputs), r₁) ∧
          (r₁.recorded ≠ [] → s.outputs = none) := by
  rw [signature_eq, ReadM.run_attempt, ReadM.run_next] at hrun
  rcases hinputs : ReadM.run signatureInputs.run r with ⟨_ | head, r₁⟩ <;>
    obtain ⟨hbegins, hnone, hhead⟩ := run_signatureInputs hr hinputs <;> rw [hinputs] at hrun
  · cases hrun
    exact ⟨hbegins, fun _ => hnone rfl, nofun⟩
  · obtain ⟨hne, hended⟩ := hhead head rfl
    have hsome : Succeeds signatureOutputs := Succeeds.orElse (.succeed none)
    simp only at hrun
    rw [ReadM.run_next] at hrun
    rcases houtputs : ReadM.run signatureOutputs.run r₁ with ⟨_ | outputs, r₂⟩
    · have := hsome r₁
      rw [houtputs] at this
      cases this
    · obtain ⟨hne', hended', hgiven⟩ := run_signatureOutputs hended houtputs
      rw [houtputs] at hrun
      cases hrun
      refine ⟨hbegins, nofun, fun s hs => ?_⟩
      cases hs
      exact ⟨hne, hne', hended', r₁, rfl, hgiven⟩

/-! ### The rule -/

/-- The diagnostic is about the type expression that the cursor is before.  It begins with a
bracket, and whoever tries to read it fails in the same way once more. -/
structure Abandoned (s : Parsing) (d : Diagnostic) : Prop where
  bracket : ∃ c ∈ s.cursor.mark.rest.head?, c = '[' ∨ c = '{'
  beyond : s.cursor.position < d.location.place.offset
  again : ∃ s' d', s.parser.run s.cursor typeExpr = .ok (none, s') ∧
    s'.parser.recorded = s.parser.recorded ++ [d'] ∧ d.Meets d'

/-- Where a reader has ended a list of types, a parser has nothing recorded or has abandoned one. -/
theorem Shadows.abandoned {kept : List Diagnostic} {s : Parsing} (h : Shadows kept s r')
    (hended : Ended r') : ∃ new, s.parser.recorded = kept ++ new ∧
      Stops isBlank s.cursor.mark.rest ∧
        (r'.recorded = [] ∧ new = [] ∨ ∃ d, new = [d] ∧ Abandoned s d) := by
  obtain ⟨new, hrecorded, hnew⟩ := h.recorded
  refine ⟨new, hrecorded, h.mark.rest ▸ hended.stops, ?_⟩
  rcases hended.recorded with hnil | ⟨d, hd, hlt, hbracket⟩
  · rw [hnil] at hnew
    exact .inl ⟨hnil, List.forall₂_nil_left_iff.1 hnew⟩
  rw [hd] at hnew
  obtain ⟨d', _, hmeets, hnil, rfl⟩ := List.forall₂_cons_left_iff.1 hnew
  obtain rfl := List.forall₂_nil_left_iff.1 hnil
  refine .inr ⟨d', rfl, h.mark.rest ▸ hbracket, ?_, ?_⟩
  · rw [hmeets.offset]
    exact h.mark.offset.trans_lt hlt
  · -- The parser takes the steps of the reader that makes the attempt again.
    have hagain : Shadows s.parser.recorded s { r' with recorded := [] } :=
      ⟨h.truthful, h.fits, h.filename, h.mark, [], (List.append_nil _).symm, .nil⟩
    obtain ⟨s', hrun, hs', -⟩ := (ParseM.shadowing s.parser.recorded).typeExpr s _ hagain
    rw [hended] at hrun hs'
    obtain ⟨again, hrecorded', hagain'⟩ := hs'.recorded
    rw [hd] at hagain'
    obtain ⟨d'', _, hmeets', hnil', rfl⟩ := List.forall₂_cons_left_iff.1 hagain'
    obtain rfl := List.forall₂_nil_left_iff.1 hnil'
    exact ⟨s', d'', hrun, hrecorded', hmeets.symm.trans hmeets'⟩

/-- **A signature is decided by its name and colons.**  Whatever a parser has seen before and
wherever its cursor is, it returns a signature if and only if a name and two colons come next, and
records nothing if it returns none.  The types of a signature that is returned are absent or not
empty.  It has recorded nothing and ends before the end of the text or something that is no blank,
or it has recorded one diagnostic and ends before the bracket of the type that was abandoned.  If
something was recorded among the inputs then there are no outputs. -/
theorem Parser.Reached.signature_decided_by_head {parser : Parser} (h : parser.Reached)
    {c : Cursor} (hc : c.mark.Fits c.source.text) :
    ∃ result after new, parser.run c signature = .ok (result, after) ∧
      after.parser.recorded = parser.recorded ++ new ∧
      (result.isSome = true ↔ Signature.Begins c.mark.rest) ∧ (result = none → new = []) ∧
      ∀ s, result = some s → s.inputs ≠ some [] ∧ s.outputs ≠ some [] ∧
        (new = [] ∧ Stops isBlank after.cursor.mark.rest ∨
          ∃ d, new = [d] ∧ Abandoned after d) ∧
        ∃ behind, parser.run c signatureInputs = .ok (some (s.name, s.inputs), behind) ∧
          (behind.parser.recorded ≠ parser.recorded → s.outputs = none) := by
  obtain ⟨after, hrun, hafter⟩ := h.run_call hc .signature
  rcases hread : Call.signature.reading c with ⟨result, r'⟩
  rw [hread] at hrun hafter
  obtain ⟨hbegins, hnone, hsome⟩ := run_signature_parts rfl hread
  obtain ⟨new, hrecorded, hmeets⟩ := hafter.recorded
  refine ⟨result, after, new, hrun, hrecorded, hbegins, fun hresult => ?_, fun s hs => ?_⟩
  · rw [hnone hresult] at hmeets
    exact List.forall₂_nil_left_iff.1 hmeets
  obtain ⟨hinputs, houtputs, hended, r₁, hhead, hgiven⟩ := hsome s hs
  refine ⟨hinputs, houtputs, ?_, ?_⟩
  · obtain ⟨new', hrecorded', hstops, hnew'⟩ := hafter.abandoned hended
    obtain rfl : new' = new := List.append_cancel_left (hrecorded'.symm.trans hrecorded)
    exact hnew'.imp (fun hnil => ⟨hnil.2, hstops⟩) id
  · obtain ⟨behind, hrun', hbehind⟩ :=
      run_of_truthful h.truthful hc (ParseM.shadowing parser.recorded).signatureInputs
    rw [hhead] at hrun' hbehind
    refine ⟨behind, hrun', fun hne => hgiven fun hnil => hne ?_⟩
    obtain ⟨more, hbefore, hmeets'⟩ := hbehind.recorded
    rw [hnil] at hmeets'
    rw [hbefore, List.forall₂_nil_left_iff.1 hmeets', List.append_nil]

/-- The array type is not closed.  The parser has seen the name before, and its cursor has read the
line feed as a single character.  The signature has one input, and a sign that stands behind the
bracket is not reached. -/
theorem Parser.Reached.signature_decided_by_head_bracket : ∃ (parser : Parser) (c : Cursor),
    parser.Reached ∧ c.mark.Fits c.source.text ∧ c.mark.place = ⟨1, 1, 2⟩ ∧
    parser.memo.size = 1 ∧ ∃ after d, parser.run c signature =
        .ok (some ⟨"f", some [.plain "A"], none⟩, after) ∧
      after.parser.recorded = parser.recorded ++ [d] ∧ Abandoned after d ∧
      after.cursor.mark.rest = "[B = C".toList := by
  have hseen : (Cursor.start ⟨0, "\nf :: A [B = C"⟩ "f").skipSpace.mark.Fits "\nf :: A [B = C" :=
    (Mark.Fits.start _).takes (Mark.skipSpace_passes _).takes
  have hc : (Cursor.start ⟨0, "\nf :: A [B = C"⟩ "f").read.2.mark.Fits "\nf :: A [B = C" :=
    (Mark.Fits.start _).takes (Mark.read?_takes rfl)
  obtain ⟨seen, hidentifier, -⟩ := Reached.run_call
    (c := (Cursor.start ⟨0, "\nf :: A [B = C"⟩ "f").skipSpace) .empty hseen .identifier
  have h := Reached.call _ _ .empty hseen hidentifier
  obtain ⟨result, after, new, hrun, hrecorded, -, -, hsignature⟩ := signature_decided_by_head
    (c := (Cursor.start ⟨0, "\nf :: A [B = C"⟩ "f").read.2) h hc
  have heval : ((Parser.empty.run (Cursor.start ⟨0, "\nf :: A [B = C"⟩ "f").skipSpace
      Call.identifier.rule).toOption.bind fun s => (s.2.parser.run
        (Cursor.start ⟨0, "\nf :: A [B = C"⟩ "f").read.2 signature).toOption.map fun t =>
          (s.2.parser.memo.size, s.2.parser.recorded, t.1, t.2.parser.recorded.length,
            t.2.cursor.mark.rest)) =
      some (1, [], some ⟨"f", some [.plain "A"], none⟩, 1, "[B = C".toList) := by decide +kernel
  rw [hidentifier] at heval
  simp only [Except.toOption, Option.bind_some] at heval
  rw [hrun] at heval
  simp only [Option.map_some, Option.some.injEq, Prod.mk.injEq] at heval
  obtain ⟨hsize, hbefore, rfl, hlength, hrest⟩ := heval
  obtain ⟨-, -, hnew, -⟩ := hsignature _ rfl
  rcases hnew with ⟨rfl, -⟩ | ⟨d, rfl, habandoned⟩
  · rw [hrecorded, hbefore] at hlength
    cases hlength
  · exact ⟨_, _, h, hc, rfl, hsize, after, d, hrun, hrecorded, habandoned, hrest⟩

end Grammar

end DeclLang
