import DeclLang.Proofs.Grammar.Misreading
import DeclLang.Proofs.Module.Reading

/-!
# Printing

`Module.print` writes declarations the way they are written by hand, one after another.  Whatever
well-formed declarations are printed, they are read again (`Module.parse_print`).

There are three places where reading could go wrong, and each is settled by what may follow:

* a list of types goes on over the end of a line, but no declaration begins like a type;
* a block of members goes on over the end of a line, but no declaration is indented;
* the keyword `type` needs no blank behind it, so a function may have a name that begins with it.
  A definition is begun then and fails at the second colon at the latest
  (`Reads.typeDefinition_of_name`).
-/

namespace DeclLang

open Text

/-! ### Well-formed declarations -/

/-- The names in it are type names, or it is the unit type. -/
def TypeExpr.WellFormed : TypeExpr → Prop
  | plain name => name = unitName ∨ isWord isTypeStart name = true
  | array element => isWord isTypeStart element = true
  | map key value => isWord isTypeStart key = true ∧ isWord isTypeStart value = true

instance : DecidablePred TypeExpr.WellFormed
  | .plain _ => inferInstanceAs (Decidable (_ ∨ _))
  | .array _ => inferInstanceAs (Decidable (_ = _))
  | .map _ _ => inferInstanceAs (Decidable (_ ∧ _))

/-- Tag and payload are type names. -/
def Member.WellFormed (m : Member) : Prop :=
  isWord isTypeStart m.tag = true ∧ isWord isTypeStart m.payload = true

instance : DecidablePred Member.WellFormed := fun _ => inferInstanceAs (Decidable (_ ∧ _))

/-- All names are type names, and there is a member. -/
def TypeDefinition.WellFormed : TypeDefinition → Prop
  | ofAlias d => isWord isTypeStart d.name = true ∧ isWord isTypeStart d.target = true
  | ofAlgebraic d => isWord isTypeStart d.name = true ∧ d.members ≠ [] ∧
      ∀ m ∈ d.members, m.WellFormed

instance : DecidablePred TypeDefinition.WellFormed
  | .ofAlias _ => inferInstanceAs (Decidable (_ ∧ _))
  | .ofAlgebraic _ => inferInstanceAs (Decidable (_ ∧ _ ∧ _))

/-- The types are well-formed, and absent rather than none. -/
def Signature.TypesWellFormed (types : Option (List TypeExpr)) : Prop :=
  types ≠ some [] ∧ ∀ t ∈ types.getD [], t.WellFormed

instance : DecidablePred Signature.TypesWellFormed := fun _ => inferInstanceAs (Decidable (_ ∧ _))

/-- The name is that of a function. -/
def Signature.WellFormed (s : Signature) : Prop :=
  isWord isVariableStart s.name = true ∧ TypesWellFormed s.inputs ∧ TypesWellFormed s.outputs

instance : DecidablePred Signature.WellFormed := fun _ => inferInstanceAs (Decidable (_ ∧ _ ∧ _))

/-- All names in it are of the right kind, and no list in it is empty. -/
def Declaration.WellFormed : Declaration → Prop
  | type d => d.WellFormed
  | function s => s.WellFormed

instance : DecidablePred Declaration.WellFormed
  | .type d => inferInstanceAs (Decidable d.WellFormed)
  | .function s => inferInstanceAs (Decidable s.WellFormed)

/-! ### Printing -/

/-- Types, each with a blank before it. -/
def Signature.printTypes (types : Option (List TypeExpr)) : List Char :=
  (types.getD []).flatMap fun t => ' ' :: t.spelling

/-- Outputs with the sign before them, which is there only if they are. -/
def Signature.printOutputs (outputs : Option (List TypeExpr)) : List Char :=
  if outputs = none then [] else " =".toList ++ printTypes outputs

/-- A signature on one line. -/
def Signature.print (s : Signature) : List Char :=
  s.name.toList ++ " ::".toList ++ printTypes s.inputs ++ printOutputs s.outputs

theorem Signature.print_append (s : Signature) (cs : List Char) :
    s.print ++ cs = s.name.toList ++ ' ' :: ':' :: ':' ::
      (printTypes s.inputs ++ (printOutputs s.outputs ++ cs)) := by
  simp [print]

/-- A member on a line of its own. -/
def Member.print (m : Member) : List Char :=
  "\n  ".toList ++ m.tag.toList ++ ' ' :: m.payload.toList

theorem Member.print_append (m : Member) (cs : List Char) :
    m.print ++ cs =
      '\n' :: ([' ', ' '] ++ (m.tag.toList ++ ' ' :: (m.payload.toList ++ cs))) := by
  show "\n  ".toList ++ m.tag.toList ++ ' ' :: m.payload.toList ++ cs = _
  simp

/-- A type definition, without the end of its last line. -/
def TypeDefinition.print : TypeDefinition → List Char
  | ofAlias d => "type ".toList ++ d.name.toList ++ ' ' :: d.target.toList
  | ofAlgebraic d => "type ".toList ++ d.name.toList ++ ':' :: d.members.flatMap Member.print

theorem TypeDefinition.print_ofAlias_append (d : Alias) (cs : List Char) :
    (ofAlias d).print ++ cs =
      "type".toList ++ ' ' :: (d.name.toList ++ ' ' :: (d.target.toList ++ cs)) := by
  show "type ".toList ++ d.name.toList ++ ' ' :: d.target.toList ++ cs = _
  simp

theorem TypeDefinition.print_ofAlgebraic_append (d : Algebraic) (cs : List Char) :
    (ofAlgebraic d).print ++ cs =
      "type".toList ++ ' ' :: (d.name.toList ++ ':' :: (d.members.flatMap Member.print ++ cs)) := by
  show "type ".toList ++ d.name.toList ++ ':' :: d.members.flatMap Member.print ++ cs = _
  simp

/-- The lines of a declaration. -/
def Declaration.print : Declaration → List Char
  | type d => d.print ++ ['\n']
  | function s => s.print ++ ['\n']

/-- The text of a list of declarations. -/
def Module.print (ds : List Declaration) : String := String.ofList (ds.flatMap Declaration.print)

namespace Grammar

open Scanner

/-- The class of characters that type expressions begin with. -/
def opensType (c : Char) : Bool := isTypeStart c || c == '[' || c == '\x7b' || c == '('

/-- Nothing more, or another declaration. -/
def Follows (cs : List Char) : Prop := Stops (fun c => !isVariableStart c) cs

theorem Follows.stops {p : Char → Bool} {cs : List Char} (h : Follows cs)
    (hp : ∀ c, p c = true → isVariableStart c = false) : Stops p cs :=
  h.mono fun c hc => by rw [hp c hc]; rfl

theorem Follows.unblank_eq {cs : List Char} (h : Follows cs) : unblank cs = cs :=
  unblank_eq_self (h.stops fun _ hc => isVariableStart_eq_false_of_isBlank hc)

theorem isVariableStart_eq_false_of_opensType (c : Char) (h : opensType c = true) :
    isVariableStart c = false := by
  simp only [opensType, Bool.or_eq_true, beq_iff_eq] at h
  rcases h with ((h | rfl) | rfl) | rfl
  · exact isVariableStart_eq_false_of_isTypeStart h
  all_goals decide

namespace Reads

variable {cs more : List Char}

/-! ### Type expressions -/

/-- No type expression is there. -/
theorem typeExpr_none (h : unblank cs = more) (hmore : Stops opensType more) :
    Reads typeExpr cs none more := by
  have hself : unblank more = more := by rw [← h, unblank_unblank]
  have hname : Stops isTypeStart more := hmore.mono (by simp_all [opensType])
  have hbracket : Stops (· == '[') more := hmore.mono (by simp_all [opensType])
  have hbrace : Stops (· == '\x7b') more := hmore.mono (by simp_all [opensType])
  have hparen : Stops (· == '(') more := hmore.mono (by simp_all [opensType])
  refine ((typeName_none h hname).map_none _).orElse_none ?_
  refine (keyword_none_of_stops hself rfl hbracket).next_none.attempt_none.orElse_none ?_
  refine (keyword_none_of_stops hself rfl hbrace).next_none.attempt_none.orElse_none ?_
  exact (keyword_none_of_stops hself rfl hparen).next_none

theorem typeName_self {name : String} (hname : isWord isTypeStart name = true)
    (hmore : Stops isNameChar more) : Reads typeName (name.toList ++ more) (some name) more :=
  typeName_some hname (unblank_eq_self (stops_typeName hname more)) hmore

theorem typeName_blank {name : String} (hname : isWord isTypeStart name = true)
    (hmore : Stops isNameChar more) :
    Reads typeName (' ' :: (name.toList ++ more)) (some name) more :=
  typeName_some hname (unblank_eq_self (stops_typeName hname more)) hmore

theorem typeExpr_some {t : TypeExpr} (ht : t.WellFormed) (hmore : Stops isNameChar more) :
    Reads typeExpr (' ' :: t.spelling ++ more) (some t) more := by
  have bracket {c : Char} {cs : List Char} (hblank : isBlank c = false)
      (hc : isTypeStart c = false) : Reads typeName (' ' :: c :: cs) none (c :: cs) :=
    typeName_none (unblank_eq_self (stops_cons.2 hblank)) (stops_cons.2 hc)
  cases t with
  | plain name =>
    rcases ht with rfl | hname
    · refine ((bracket (by decide) (by decide)).map_none _).orElse_none ?_
      refine (keyword_none_of_stops rfl rfl ?_).next_none.attempt_none.orElse_none ?_
      · exact stops_cons.2 (by decide)
      refine (keyword_none_of_stops rfl rfl ?_).next_none.attempt_none.orElse_none ?_
      · exact stops_cons.2 (by decide)
      exact (keyword_some rfl).next_some (succeed _ _)
    · exact ((typeName_blank hname hmore).map_some _).orElse_some
  | array element =>
    have hspelling : ' ' :: (TypeExpr.array element).spelling ++ more =
        ' ' :: '[' :: (element.toList ++ ']' :: more) := by simp [TypeExpr.spelling]
    rw [hspelling]
    refine ((bracket (by decide) (by decide)).map_none _).orElse_none ?_
    refine orElse_some (attempt_some ((keyword_some rfl).next_some ?_))
    refine (typeName_self ht (stops_cons.2 (by decide))).next_some ?_
    exact (expect_some rfl).next_some (succeed _ _)
  | map key value =>
    have hspelling : ' ' :: (TypeExpr.map key value).spelling ++ more =
        ' ' :: '\x7b' :: (key.toList ++ ':' :: (value.toList ++ '\x7d' :: more)) := by
      simp [TypeExpr.spelling]
    rw [hspelling]
    refine ((bracket (by decide) (by decide)).map_none _).orElse_none ?_
    refine (keyword_none_of_stops rfl rfl ?_).next_none.attempt_none.orElse_none ?_
    · exact stops_cons.2 (by decide)
    refine orElse_some (attempt_some ((keyword_some rfl).next_some ?_))
    refine (typeName_self ht.1 (stops_cons.2 (by decide))).next_some ?_
    refine (expect_some rfl).next_some ?_
    refine (typeName_self ht.2 (stops_cons.2 (by decide))).orElse_some.next_some ?_
    exact (expect_some rfl).next_some (succeed _ _)

theorem typeExprs_some {types : Option (List TypeExpr)} (htypes : Signature.TypesWellFormed types)
    (hcs : Stops isNameChar cs) (hend : unblank cs = more) (hmore : Stops opensType more) :
    Reads typeExprs (Signature.printTypes types ++ cs) (some types) more := by
  have hbound : (types.getD []).length < (Signature.printTypes types ++ cs).length + 1 := by
    have : (types.getD []).length ≤ (Signature.printTypes types).length :=
      length_le_length_flatMap (by simp) _
    rw [List.length_append]
    omega
  refine (bound_some _).next_some ?_
  refine (many_some (typeExpr_none hend hmore) hcs ?_ ?_ hbound).next_some ?_
  · intro t more
    exact stops_cons.2 (by decide)
  · intro t ht more hmore
    exact typeExpr_some (htypes.2 t ht) hmore
  · match types, htypes.1 with
    | none, _ => exact succeed none _
    | some (first :: others), _ => exact succeed (some (first :: others)) _

/-! ### Signatures -/

theorem signature_some {s : Signature} (hs : s.WellFormed) (hcs : Follows cs) :
    Reads signature (s.print ++ '\n' :: cs) (some s) cs := by
  obtain ⟨name, inputs, outputs⟩ := s
  obtain ⟨hname, hinputs, houtputs⟩ := hs
  have hend : unblank ('\n' :: cs) = cs := by rw [unblank_lineFeed, hcs.unblank_eq]
  have htypes {types : Option (List TypeExpr)} (h : Signature.TypesWellFormed types) :
      Reads typeExprs (Signature.printTypes types ++ '\n' :: cs) (some types) cs :=
    typeExprs_some h (stops_cons.2 (by decide)) hend
      (hcs.stops isVariableStart_eq_false_of_opensType)
  rw [Signature.print_append]
  have hself := unblank_eq_self (stops_identifier hname (' ' :: ':' :: ':' ::
    (Signature.printTypes inputs ++ (Signature.printOutputs outputs ++ '\n' :: cs))))
  refine attempt_some (next_some (identifier_some hname hself ?_) ?_)
  · exact stops_cons.2 (by decide)
  refine (keyword_some rfl).next_some ?_
  cases outputs with
  | none =>
    -- The types end at the next declaration, and it does not begin with the sign.
    have hsign : Stops (· == '=') cs := hcs.stops (by simp [isVariableStart])
    refine (htypes hinputs).next_some (next_some ?_ (succeed _ cs))
    exact (keyword_none_of_stops hcs.unblank_eq rfl hsign).next_none.orElse_none
      (succeed none cs)
  | some types =>
    refine next_some (typeExprs_some hinputs ?_ rfl ?_) (next_some ?_ (succeed _ cs))
    · exact stops_cons.2 (by decide)
    · exact stops_cons.2 (by decide)
    · exact ((keyword_some rfl).next_some (htypes houtputs)).orElse_some

/-! ### Type definitions -/

/-- Lines of a printed block stand at the same indentation. -/
theorem line_some {block : Option Nat} (hblock : block = none ∨ block = some 2) {m : Member}
    (hm : m.WellFormed) (hmore : Stops isNameChar more) :
    Reads (line block) (m.print ++ more) (some (.member 2 m)) more := by
  have hindent : Stops isPad (m.tag.toList ++ ' ' :: (m.payload.toList ++ more)) :=
    (stops_typeName hm.1 _).mono fun _ hc => isBlank_of_isPad hc
  rw [m.print_append]
  refine (indent_some (by simp [isPad]) (by simp) hindent).next_some ?_
  have htag := @typeName_self (' ' :: (m.payload.toList ++ more)) _ hm.1 (stops_cons.2 (by decide))
  rcases hblock with rfl | rfl
  · exact htag.next_some ((typeName_blank hm.2 hmore).next_some (succeed _ more))
  · exact htag.next_some ((typeName_blank hm.2 hmore).next_some (succeed _ more))

theorem members_some {block : Option Nat} (hblock : block = none ∨ block = some 2)
    {ms : List Member} (hms : ∀ m ∈ ms, m.WellFormed) (hcs : Stops isPad cs) {k : Nat}
    (hk : ms.length < k) :
    Reads (members block k) (ms.flatMap Member.print ++ '\n' :: cs) (some ms) ('\n' :: cs) := by
  induction ms generalizing block k with
  | nil =>
    obtain ⟨k, rfl⟩ := Nat.exists_eq_succ_of_ne_zero hk.ne'
    have hline : Reads (line block) ('\n' :: cs) none ('\n' :: cs) :=
      (indent_none_of_lineFeed hcs).next_none
    exact hline.attempt_none.optional_none.next_some (succeed [] _)
  | cons m ms ih =>
    obtain ⟨k, rfl⟩ := Nat.exists_eq_succ_of_ne_zero (Nat.ne_zero_of_lt hk)
    have hmore : Stops isNameChar (ms.flatMap Member.print ++ '\n' :: cs) := by
      cases ms <;> exact stops_cons.2 (by decide)
    have hline := line_some hblock (hms m (by simp)) hmore
    have hothers := ih (.inr rfl) (fun m' hm' => hms m' (by simp [hm'])) (Nat.lt_of_succ_lt_succ hk)
    rw [List.flatMap_cons, List.append_assoc]
    exact hline.attempt_some.optional_some.next_some (hothers.next_some (succeed (m :: ms) _))

theorem typeDefinition_some {d : TypeDefinition} (hd : d.WellFormed) (hcs : Stops isPad cs) :
    Reads typeDefinition (d.print ++ '\n' :: cs) (some d) ('\n' :: cs) := by
  have hfeed : Stops isNameChar ('\n' :: cs) := stops_cons.2 (by decide)
  cases d with
  | ofAlias d =>
    have htarget := typeName_blank hd.2 hfeed
    have hname := @typeName_blank (' ' :: (d.target.toList ++ '\n' :: cs)) _ hd.1
      (stops_cons.2 (by decide))
    rw [TypeDefinition.print_ofAlias_append]
    refine attempt_some ((keyword_some rfl).next_some (hname.orElse_some.next_some ?_))
    exact htarget.optional_some.next_some (succeed _ _)
  | ofAlgebraic d =>
    obtain ⟨name, ms⟩ := d
    obtain ⟨hname, hne, hms⟩ := hd
    have hbound : ms.length < (ms.flatMap Member.print ++ '\n' :: cs).length + 1 := by
      have : ms.length ≤ (ms.flatMap Member.print).length :=
        length_le_length_flatMap (by simp [Member.print]) ms
      rw [List.length_append]
      omega
    have hname := @typeName_blank (':' :: (ms.flatMap Member.print ++ '\n' :: cs)) _ hname
      (stops_cons.2 (by decide))
    rw [TypeDefinition.print_ofAlgebraic_append]
    refine attempt_some ((keyword_some rfl).next_some (hname.orElse_some.next_some ?_))
    refine (typeName_none rfl (stops_cons.2 (by decide))).optional_none.next_some ?_
    refine (expect_some rfl).next_some ((bound_some _).next_some ?_)
    refine (members_some (.inl rfl) hms hcs hbound).next_some ?_
    cases ms with
    | nil => exact absurd rfl hne
    | cons first others => exact succeed _ _

/-! ### Declarations -/

/-- A printed declaration is read again, whatever declaration comes next. -/
theorem declaration_some {d : Declaration} (hd : d.WellFormed) (hcs : Follows cs) :
    ∃ rest, Reads declaration (d.print ++ cs) (some d) rest ∧ unblank rest = cs := by
  cases d with
  | type d =>
    have hpad : Stops isPad cs :=
      hcs.stops fun _ hc => isVariableStart_eq_false_of_isBlank (isBlank_of_isPad hc)
    refine ⟨'\n' :: cs, ?_, by rw [unblank_lineFeed, hcs.unblank_eq]⟩
    rw [Declaration.print, List.append_assoc]
    exact ((typeDefinition_some hd hpad).map_some _).orElse_some
  | function s =>
    refine ⟨cs, ?_, hcs.unblank_eq⟩
    have hblank : ∀ c ∈ [' '], isBlank c = true := List.forall_mem_singleton.2 (by decide)
    have hnone := @typeDefinition_of_name s.name [' '] (Signature.printTypes s.inputs ++
      (Signature.printOutputs s.outputs ++ '\n' :: cs)) hd.1 hblank
    rw [List.singleton_append, ← s.print_append] at hnone
    rw [Declaration.print, List.append_assoc]
    exact (hnone.map_none _).orElse_none ((signature_some hd hcs).map_some _)

end Reads

end Grammar

/-! ### Modules -/

open Grammar

/-- No declaration begins like a blank or a type. -/
theorem follows_print {ds : List Declaration} (hds : ∀ d ∈ ds, d.WellFormed) :
    Follows (ds.flatMap Declaration.print) := by
  cases ds with
  | nil => exact stops_nil _
  | cons d ds =>
    rw [List.flatMap_cons]
    match d, hds d List.mem_cons_self with
    | .type (.ofAlias _), _ => exact stops_cons.2 (by decide)
    | .type (.ofAlgebraic _), _ => exact stops_cons.2 (by decide)
    | .function s, hs =>
      rw [Declaration.print, List.append_assoc, s.print_append]
      exact stops_word hs.1 (fun c hc => by rw [hc]; rfl) _

/-- Printed declarations are what the text consists of, whatever place it begins at. -/
theorem declares_print {ds : List Declaration} (hds : ∀ d ∈ ds, d.WellFormed) (filename : String)
    {m : Mark} (hm : unblank m.rest = ds.flatMap Declaration.print) :
    ∃ parts, Declares filename m parts ∧ parts.map Prod.fst = ds := by
  induction ds generalizing m with
  | nil => exact ⟨[], .nil hm, rfl⟩
  | cons d ds ih =>
    have hothers : ∀ d' ∈ ds, d'.WellFormed := fun d' hd' => hds d' (List.mem_cons_of_mem d hd')
    obtain ⟨rest, hreads, hrest⟩ :=
      Reads.declaration_some (hds d List.mem_cons_self) (follows_print hothers)
    obtain ⟨⟨filename', m', recorded⟩, hrun, rfl⟩ := hreads ⟨filename, m.skipSpace, []⟩ hm
    obtain rfl : filename' = filename := filename_of_declaration hrun
    obtain ⟨parts, hparts, rfl⟩ := ih hothers hrest
    have hsome : m.skipSpace.rest ≠ [] :=
      List.ne_nil_of_length_pos (Nat.zero_lt_of_lt (length_lt_of_declaration hrun))
    exact ⟨(d, recorded) :: parts, .cons hsome hrun hparts, rfl⟩

/-- **Reading undoes printing.**  Well-formed declarations that are printed one after another are
read again, all of them and in their order, under whatever name the file has. -/
theorem Module.parse_print {ds : List Declaration} (hds : ∀ d ∈ ds, d.WellFormed)
    (filename : String) :
    ∃ diagnostics, parse (print ds) filename = .ok ⟨filename, ds, diagnostics⟩ := by
  have hm : unblank (Mark.start (print ds)).rest = ds.flatMap Declaration.print := by
    rw [Mark.start, print, String.toList_ofList, (follows_print hds).unblank_eq]
  obtain ⟨parts, hparts, rfl⟩ := declares_print hds filename hm
  exact ⟨_, parse_eq_ok_iff.2 ⟨parts, hparts, rfl⟩⟩

/-- Functions may be called `type` and `typeA`, next to type definitions. -/
theorem Module.parse_print_called_type : ∃ ds : List Declaration,
    ds = [.function ⟨"type", some [.unit], none⟩,
      .type (.ofAlgebraic ⟨"A", [⟨"B", "C"⟩, ⟨"D", "E"⟩]⟩),
      .function ⟨"typeA", none, some [.array "A", .map "B" "C"]⟩, .type (.ofAlias ⟨"B", "A"⟩)] ∧
    (∀ d ∈ ds, d.WellFormed) ∧
    ∃ diagnostics, parse (print ds) "f" = .ok ⟨"f", ds, diagnostics⟩ :=
  ⟨_, rfl, by decide, parse_print (by decide) "f"⟩

end DeclLang
