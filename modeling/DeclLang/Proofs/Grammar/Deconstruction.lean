import DeclLang.Proofs.Grammar.Coverage
import DeclLang.Proofs.Grammar.Outcome
import DeclLang.Proofs.Grammar.Position

/-!
# The texts of deconstructors

`Deconstructor.Spelled` says which texts are a deconstructor, with the blanks they may have, and
`ElementsSpelled` says so of its elements together with the parenthesis that closes them.  A name
ends where no character of a name follows, so tokens may stand side by side.

The rule tries a nested deconstructor before each variable.  On the text of a variable that attempt
fails at once, for want of a parenthesis, and goes back; so the rule passes exactly these texts:

* every spelling is read (`Reads.deconstructorWithin_some`), by induction on the spelling, whose
  length bounds the depth and the number of elements;
* all that is read is a spelling (`Covers.deconstructorWithin`), by induction on the bounds.

The variables of a deconstructor are the identifiers that its text is split into at the characters
that are in no name (`Deconstructor.Spelled.identifiers_append`).
-/

namespace DeclLang

open Text

/-! ### Spellings -/

namespace Deconstructor

mutual

/-- The text is a deconstructor, with blanks before it. -/
inductive Spelled : Deconstructor → List Char → Prop
  | parentheses {d : Deconstructor} {gap gap' body : List Char} : Gap gap → Gap gap' →
      isWord isTypeStart d.typeName = true → Stops isNameChar body →
      ElementsSpelled 0 d.elements body →
      Spelled d (gap ++ '(' :: (gap' ++ (d.typeName.toList ++ body)))

/-- The text is the elements from an index on and the parenthesis behind them. -/
inductive ElementsSpelled : Nat → List Element → List Char → Prop
  | close {index : Nat} {gap : List Char} : Gap gap → ElementsSpelled index [] (gap ++ [')'])
  | binding {index : Nat} {name : String} {es : List Element} {gap more : List Char} : Gap gap →
      isWord isVariableStart name = true → Stops isNameChar more →
      ElementsSpelled (index + 1) es more →
      ElementsSpelled index (.binding index name :: es) (gap ++ (name.toList ++ more))
  | nested {index : Nat} {d : Deconstructor} {es : List Element} {text more : List Char} :
      Spelled d text → ElementsSpelled (index + 1) es more →
      ElementsSpelled index (d.toElement :: es) (text ++ more)

end

theorem Spelled.ne_nil {d : Deconstructor} {text : List Char} (h : d.Spelled text) :
    text ≠ [] := by
  cases h
  simp

theorem ElementsSpelled.ne_nil {index : Nat} {es : List Element} {text : List Char}
    (h : ElementsSpelled index es text) : text ≠ [] := by
  cases h with
  | close => simp
  | binding _ _ _ hmore => simp [hmore.ne_nil]
  | nested _ hmore => simp [hmore.ne_nil]

end Deconstructor

/-! ### Identifiers of a text -/

namespace Text

/-- The identifiers among the pieces a text is split into at the characters that are in no name. -/
def identifiers (cs : List Char) : List String :=
  ((cs.splitOnP fun c => !isNameChar c).map String.ofList).filter (isWord isVariableStart)

variable {cs ds more : List Char}

theorem identifiers_nil : identifiers [] = [] := by decide

theorem identifiers_append_cons {c : Char} (hc : isNameChar c = false) (cs ds : List Char) :
    identifiers (cs ++ c :: ds) = identifiers cs ++ identifiers ds := by
  have hsep : (fun c => !isNameChar c) c = true := by simpa using hc
  rw [identifiers, List.splitOnP_append_cons cs ds hsep, List.map_append, List.filter_append]
  rfl

theorem identifiers_append (h : Stops isNameChar ds) (cs : List Char) :
    identifiers (cs ++ ds) = identifiers cs ++ identifiers ds := by
  cases ds with
  | nil => rw [List.append_nil, identifiers_nil, List.append_nil]
  | cons d ds =>
    have hd := stops_cons.1 h
    have hskip := identifiers_append_cons hd [] ds
    rw [List.nil_append, identifiers_nil, List.nil_append] at hskip
    rw [identifiers_append_cons hd, hskip]

/-- There is no identifier where there is no character of a name. -/
theorem identifiers_skip (h : ∀ c ∈ cs, isNameChar c = false) (ds : List Char) :
    identifiers (cs ++ ds) = identifiers ds := by
  induction cs with
  | nil => rfl
  | cons c cs ih =>
    have hskip := identifiers_append_cons (h c List.mem_cons_self) [] (cs ++ ds)
    rw [List.cons_append, ← List.nil_append (c :: (cs ++ ds)), hskip, identifiers_nil,
      List.nil_append, ih fun d hd => h d (List.mem_cons_of_mem c hd)]

theorem identifiers_gap (h : Gap cs) (ds : List Char) : identifiers (cs ++ ds) = identifiers ds :=
  identifiers_skip (fun c hc => isNameChar_eq_false_of_isBlank (h c hc)) ds

/-- A word is one piece. -/
theorem identifiers_word {first : Char → Bool} {word : String}
    (hfirst : ∀ c, first c = true → isNameChar c = true) (h : isWord first word = true) :
    identifiers word.toList = if isWord isVariableStart word then [word] else [] := by
  have hpiece : word.toList.splitOnP (fun c => !isNameChar c) = [word.toList] :=
    List.splitOnP_eq_singleton fun c hc => by simp [isNameChar_of_mem_word hfirst h c hc]
  rw [identifiers, hpiece, List.map_singleton, String.ofList_toList, List.filter_singleton]
  cases isWord isVariableStart word <;> rfl

theorem identifiers_typeName {name : String} (h : isWord isTypeStart name = true) :
    identifiers name.toList = [] := by
  have hvariable : isWord isVariableStart name = false := by
    obtain ⟨c, cs, rfl, hc, -⟩ := isWord_iff.1 h
    simp [isWord, isVariableStart_eq_false_of_isTypeStart hc]
  rw [identifiers_word (fun _ => isNameChar_of_isTypeStart) h, hvariable]
  rfl

theorem identifiers_variable {name : String} (h : isWord isVariableStart name = true) :
    identifiers name.toList = [name] := by
  rw [identifiers_word (fun _ => isNameChar_of_isVariableStart) h, h]
  rfl

end Text

namespace Deconstructor

mutual

/-- **The variables of a deconstructor are the identifiers of its text**, whatever comes behind. -/
theorem Spelled.identifiers_append {d : Deconstructor} {text : List Char} :
    d.Spelled text → ∀ rest : List Char,
    identifiers (text ++ rest) = d.leaves.map Leaf.name ++ identifiers rest
  | .parentheses hgap hgap' hname hstops hbody, rest => by
    have hbehind := hstops.append hbody.ne_nil rest
    simp only [List.append_assoc, List.cons_append]
    rw [identifiers_gap hgap, ← List.singleton_append,
      identifiers_skip (List.forall_mem_singleton.2 rfl), identifiers_gap hgap',
      Text.identifiers_append hbehind, identifiers_typeName hname, List.nil_append,
      hbody.identifiers_append rest]
    rfl

theorem ElementsSpelled.identifiers_append {index : Nat} {es : List Element} {text : List Char} :
    ElementsSpelled index es text → ∀ rest : List Char,
    identifiers (text ++ rest) = (leavesOf es).map Leaf.name ++ identifiers rest
  | .close hgap, rest => by
    rw [List.append_assoc, identifiers_gap hgap, identifiers_skip (List.forall_mem_singleton.2 rfl)]
    rfl
  | .binding hgap hname hstops hmore, rest => by
    have hbehind := hstops.append hmore.ne_nil rest
    simp only [List.append_assoc]
    rw [identifiers_gap hgap, Text.identifiers_append hbehind, identifiers_variable hname,
      hmore.identifiers_append rest]
    rfl
  | .nested htext hmore, rest => by
    rw [List.append_assoc, htext.identifiers_append, hmore.identifiers_append rest, leavesOf,
      List.map_append, List.append_assoc]
    rfl

end

theorem Spelled.map_name_leaves {d : Deconstructor} {text : List Char} (h : d.Spelled text) :
    d.leaves.map Leaf.name = identifiers text := by
  have := h.identifiers_append []
  rw [List.append_nil, identifiers_nil, List.append_nil] at this
  exact this.symm

end Deconstructor

namespace Grammar

open Scanner Deconstructor

/-! ### Every spelling is read -/

namespace Reads

/-- What does not begin with a parenthesis is no deconstructor. -/
theorem deconstructorWithin_none {cs : List Char} (h : Stops (· == '(') (unblank cs)) (k : Nat) :
    Reads (deconstructorWithin k) cs none cs := by
  cases k with
  | zero => exact fun r hr => ⟨r, rfl, hr⟩
  | succ k => exact (keyword_none_of_stops rfl rfl h).next_none.attempt_none

section Elements

variable {nested : OptionT ReadM Deconstructor} {index k : Nat} {es : List Element}
  {cs cs' rest : List Char}

theorem elements_stop (hnested : Reads nested cs none cs) (h : unblank cs = rest)
    (hrest : Stops isVariableStart rest) :
    Reads (elements nested index (k + 1)) cs (some []) rest := by
  rw [elements_succ]
  have helement := (hnested.map_none toElement).orElse_none
    ((identifier_none h hrest).map_none (Element.binding index))
  exact helement.optional_none.next_some (succeed [] rest)

theorem elements_cons {e : Element} (h : Reads (toElement <$> nested <|>
      Element.binding index <$> identifier) cs (some e) cs')
    (hmore : Reads (elements nested (index + 1) k) cs' (some es) rest) :
    Reads (elements nested index (k + 1)) cs (some (e :: es)) rest := by
  rw [elements_succ]
  exact h.optional_some.next_some (hmore.next_some (succeed (e :: es) rest))

end Elements

mutual

/-- **Every spelling of a deconstructor is read**, if the bound is not less than its length. -/
theorem deconstructorWithin_some {d : Deconstructor} {text : List Char} :
    d.Spelled text → ∀ {k : Nat}, text.length ≤ k → ∀ rest : List Char,
      Reads (deconstructorWithin k) (text ++ rest) (some d) rest
  | @Spelled.parentheses _ gap gap' body hgap hgap' hname hstops hbody, k, hk, rest => by
    obtain ⟨k, rfl⟩ : ∃ j, k = j + 1 := Nat.exists_eq_add_one_of_ne_zero (by
      simp only [List.length_append, List.length_cons] at hk
      omega)
    have hbody_length : body.length ≤ k := by
      simp only [List.length_append, List.length_cons] at hk
      omega
    have hbehind := hstops.append hbody.ne_nil rest
    have hopen : Reads (keyword "(") (gap ++ '(' :: (gap' ++ (d.typeName.toList ++ (body ++ rest))))
        (some ()) (gap' ++ (d.typeName.toList ++ (body ++ rest))) :=
      keyword_some (unblank_gap hgap (stops_cons.2 (by decide)))
    have hhead := typeName_some hname (unblank_gap hgap' (stops_typeName hname _)) hbehind
    have helements := elements_some hbody hbody_length (Nat.le_succ_of_le hbody_length) rest
    have hclose : Reads (expect ")" .expectedCloseParen) (')' :: rest) (some ()) rest :=
      expect_some (unblank_eq_self (stops_cons.2 (by decide)))
    simp only [List.append_assoc, List.cons_append]
    exact (hopen.next_some (hhead.next_some (helements.next_some
      (hclose.next_some (succeed d rest))))).attempt_some

theorem elements_some {index : Nat} {es : List Element} {text : List Char} :
    ElementsSpelled index es text → ∀ {n k : Nat}, text.length ≤ n → text.length ≤ k →
      ∀ rest : List Char,
        Reads (elements (deconstructorWithin n) index k) (text ++ rest) (some es) (')' :: rest)
  | @ElementsSpelled.close _ gap hgap, n, k, _, hk, rest => by
    obtain ⟨k, rfl⟩ : ∃ j, k = j + 1 := Nat.exists_eq_add_one_of_ne_zero (by
      simp only [List.length_append, List.length_singleton] at hk
      omega)
    have hspace : unblank (gap ++ ')' :: rest) = ')' :: rest :=
      unblank_gap hgap (stops_cons.2 (by decide))
    have hnested := deconstructorWithin_none (hspace ▸ stops_cons.2 (by decide)) n
    rw [List.append_assoc]
    exact elements_stop hnested hspace (stops_cons.2 (by decide))
  | @ElementsSpelled.binding _ name _ gap more hgap hname hstops hmore, n, k, hn, hk, rest => by
    have hpos := List.length_pos_iff.2 hmore.ne_nil
    have hword := List.length_pos_iff.2 (toList_ne_nil_of_isWord hname)
    simp only [List.length_append] at hn hk
    obtain ⟨k, rfl⟩ : ∃ j, k = j + 1 := Nat.exists_eq_add_one_of_ne_zero (by omega)
    have hspace :
        unblank (gap ++ (name.toList ++ (more ++ rest))) = name.toList ++ (more ++ rest) :=
      unblank_gap hgap (stops_identifier hname _)
    -- A name does not begin with a parenthesis, so the nested attempt leaves it.
    have hparen : Stops (· == '(') (name.toList ++ (more ++ rest)) := stops_word hname (by
      rintro c hc
      rw [beq_eq_false_iff_ne]
      rintro rfl
      exact absurd hc (by decide)) _
    have hnested := deconstructorWithin_none (hspace ▸ hparen) n
    have hfound := identifier_some hname hspace (hstops.append hmore.ne_nil rest)
    have hothers := elements_some hmore (n := n) (k := k) (by omega) (by omega) rest
    simp only [List.append_assoc]
    exact elements_cons ((hnested.map_none toElement).orElse_none (hfound.map_some _)) hothers
  | @ElementsSpelled.nested _ _ _ text more htext hmore, n, k, hn, hk, rest => by
    have hpos := List.length_pos_iff.2 hmore.ne_nil
    have htext_pos := List.length_pos_iff.2 htext.ne_nil
    simp only [List.length_append] at hn hk
    obtain ⟨k, rfl⟩ : ∃ j, k = j + 1 := Nat.exists_eq_add_one_of_ne_zero (by omega)
    have hfound := deconstructorWithin_some htext (k := n) (by omega) (more ++ rest)
    have hothers := elements_some hmore (n := n) (k := k) (by omega) (by omega) rest
    rw [List.append_assoc]
    exact elements_cons (hfound.map_some toElement).orElse_some hothers

end

end Reads

/-! ### All that is read is a spelling -/

theorem Idle.deconstructorWithin (k : Nat) : Idle (deconstructorWithin (m := ReadM) k) := by
  cases k with
  | zero => exact Idle.fail
  | succ k => exact Idle.attempt _

namespace Covers

/-- The elements that are read are spelled, with the parenthesis behind them. -/
theorem elements {nested : OptionT ReadM Deconstructor} (hnested : Idle nested)
    (h : Covers nested fun d text _ => d.Spelled text) (index k : Nat) :
    Covers (elements nested index k) fun es text rest => ∀ gap more, Gap gap →
      rest = gap ++ ')' :: more → ElementsSpelled index es (text ++ (gap ++ [')'])) := by
  induction k generalizing index with
  | zero => exact succeed fun rest gap more hgap _ => .close hgap
  | succ k ih =>
    have helement : Covers (toElement <$> nested <|> Element.binding index <$> Scanner.identifier)
        fun e text rest => (∃ d : Deconstructor, e = d.toElement ∧ d.Spelled text) ∨
          ∃ name, e = .binding index name ∧ IsName isVariableStart name text rest := by
      refine orElse (h.map fun d _ _ hd => .inl ⟨d, rfl, hd⟩) (hnested.map _) ?_
      refine identifier.map fun name text rest hname gap hgap => .inr ⟨name, rfl, ?_⟩
      obtain ⟨gap', hgap', rfl, hword, hstops⟩ := hname
      exact ⟨gap ++ gap', hgap.append hgap', (List.append_assoc _ _ _).symm, hword, hstops⟩
    rw [elements_succ]
    refine (helement.optional ((hnested.map _).orElse (Idle.identifier.map _))).next fun found => ?_
    cases found with
    | none =>
      refine succeed fun rest before hbefore gap more hgap hrest => ?_
      rw [List.append_nil, ← List.append_assoc]
      exact .close (hbefore.append hgap)
    | some e =>
      refine (ih (index + 1)).next fun es => succeed fun rest text hes before he gap more hgap
        hrest => ?_
      have hmore := hes gap more hgap hrest
      simp only [List.append_nil, List.append_assoc] at he ⊢
      rcases he with ⟨d, rfl, hd⟩ | ⟨name, rfl, gap', hgap', rfl, hname, hstops⟩
      · exact .nested hd hmore
      · -- What ends the name is in what the other elements and the parenthesis are spelled as.
        have hprefix : text ++ (gap ++ [')']) <+: text ++ rest := ⟨more, by simp [hrest]⟩
        rw [List.append_assoc]
        exact .binding hgap' hname (hstops.of_isPrefix hprefix) hmore

/-- **All that is read is a spelling.** -/
theorem deconstructorWithin (k : Nat) :
    Covers (deconstructorWithin (m := ReadM) k) fun d text _ => d.Spelled text := by
  induction k with
  | zero => exact fail
  | succ k ih =>
    refine attempt ((keyword "(").next fun _ => typeName.next fun name => ?_)
    refine (elements (Idle.deconstructorWithin k) ih 0 (k + 1)).next fun es => ?_
    refine (expect ")" _).next fun _ => succeed fun rest close hclose body hbody head hhead before
      hbefore => ?_
    obtain ⟨gap, hgap, rfl⟩ := hbefore
    obtain ⟨gap', hgap', rfl, hname, hstops⟩ := hhead
    obtain ⟨gap'', hgap'', rfl⟩ := hclose
    have helements := hbody gap'' rest hgap'' (by simp)
    have hprefix : body ++ (gap'' ++ [')']) <+: body ++ (gap'' ++ ")".toList ++ []) ++ rest :=
      ⟨rest, by simp⟩
    have hspelled : Spelled ⟨name, es⟩ _ :=
      .parentheses hgap hgap' hname (hstops.of_isPrefix hprefix) helements
    simpa using hspelled

end Covers

/-! ### The rule -/

theorem run_deconstructor_eq (r : Reading) : ReadM.run deconstructor.run r =
    ReadM.run (deconstructorWithin (r.mark.rest.length + 1)).run r := by
  have hbound : ReadM.run bound.run r = (some (r.mark.rest.length + 1), r) := rfl
  rw [deconstructor, ReadM.run_next, hbound]

/-- The rule returns a deconstructor and has passed a text, if and only if the text is a spelling
of it. -/
theorem run_deconstructor_iff {r : Reading} {d : Deconstructor} {m : Mark} :
    ((ReadM.run deconstructor.run r).1 = some d ∧ (ReadM.run deconstructor.run r).2.mark = m) ↔
      ∃ text, r.mark.Passes text m ∧ d.Spelled text := by
  rw [run_deconstructor_eq]
  constructor
  · rintro ⟨hresult, rfl⟩
    exact Covers.deconstructorWithin _ r d _ (Prod.ext hresult rfl)
  · rintro ⟨text, hpass, hspelled⟩
    have hlength : text.length ≤ r.mark.rest.length + 1 := by
      rw [hpass.1, List.length_append]
      omega
    obtain ⟨r', hrun, hrest⟩ := Reads.deconstructorWithin_some hspelled hlength m.rest r hpass.1
    obtain ⟨text', hpass', -⟩ := Covers.deconstructorWithin _ r d r' hrun
    -- Both texts end where the same text is left.
    obtain rfl : text' = text := List.append_cancel_right (by rw [← hpass.1, ← hrest, ← hpass'.1])
    exact ⟨by rw [hrun], by rw [hrun]; exact hpass'.unique hpass⟩

end Grammar

namespace Grammar.Parser.Reached

/-- **The rule for deconstructors accepts its grammar.**  Whatever a parser has seen before and
wherever its cursor is, it returns a deconstructor and ends at a position if and only if the text up
to there is a spelling of it; and the variables it returns are the identifiers of that text, from
left to right. -/
theorem run_deconstructor {parser : Parser} (h : parser.Reached) {c : Cursor}
    (hc : c.mark.Fits c.source.text) :
    ∃ result after, parser.run c deconstructor = .ok (result, after) ∧
      ∀ d position,
        (result = some d ∧ after.cursor.position = position ↔
          ∃ text, c.Spans text position ∧ d.Spelled text) ∧
        (result = some d ∧ after.cursor.position = position → ∀ text, c.Spans text position →
          d.leaves.map Deconstructor.Leaf.name = identifiers text) := by
  obtain ⟨after, hrun, hafter⟩ := h.run_call hc .deconstructor
  refine ⟨_, after, hrun, fun d position => ?_⟩
  have hiff : (Call.deconstructor.reading c).1 = some d ∧ after.cursor.position = position ↔
      ∃ text, c.Spans text position ∧ d.Spelled text := by
    constructor
    · rintro ⟨hresult, rfl⟩
      obtain ⟨text, hpass, hspelled⟩ := run_deconstructor_iff.1 ⟨hresult, rfl⟩
      exact ⟨text, hafter.spans hpass, hspelled⟩
    · rintro ⟨text, ⟨⟨rest, hrest⟩, rfl⟩, hspelled⟩
      have hpass : c.mark.Passes text _ := Mark.passes_of_rest_eq hrest.symm
      obtain ⟨hresult, hmark⟩ :=
        (run_deconstructor_iff (r := ⟨c.filename, c.mark, []⟩)).2 ⟨text, hpass, hspelled⟩
      exact ⟨hresult, (hafter.spans (hmark ▸ hpass)).2⟩
  refine ⟨hiff, fun hresult text hspans => ?_⟩
  obtain ⟨text', hspans', hspelled⟩ := hiff.1 hresult
  rw [hspelled.map_name_leaves, hspans'.unique hspans]

/-- Tokens that stand side by side, read by a parser that has seen the first of them before. -/
theorem run_deconstructor_adjacent : ∃ (parser : Parser) (c : Cursor), parser.Reached ∧
    c.mark.Fits c.source.text ∧ parser.memo.size = 1 ∧
    ∃ after, parser.run c deconstructor =
        .ok (some ⟨"P", [.binding 0 "a", .nested "Q" [.binding 0 "b"]]⟩, after) ∧
      after.cursor.position = 10 := by
  have h := Reached.call (Cursor.start ⟨0, "(P a(Q b))"⟩ "f") (.keyword "(") .empty
    (Mark.Fits.start _) rfl
  have hc := Mark.Fits.start "(P a(Q b))"
  obtain ⟨result, after, hrun, hiff⟩ :=
    run_deconstructor (c := Cursor.start ⟨0, "(P a(Q b))"⟩ "f") h hc
  have hb : Deconstructor.ElementsSpelled 0 [.binding 0 "b"] [' ', 'b', ')'] :=
    @Deconstructor.ElementsSpelled.binding 0 "b" [] [' '] [')'] (by decide) (by decide)
      (stops_cons.2 (by decide)) (.close .nil)
  have hinner : Deconstructor.Spelled ⟨"Q", [.binding 0 "b"]⟩ ['(', 'Q', ' ', 'b', ')'] :=
    @Deconstructor.Spelled.parentheses _ [] [] _ .nil .nil (by decide) (stops_cons.2 (by decide)) hb
  have ha : Deconstructor.ElementsSpelled 0 [.binding 0 "a", .nested "Q" [.binding 0 "b"]]
      [' ', 'a', '(', 'Q', ' ', 'b', ')', ')'] :=
    @Deconstructor.ElementsSpelled.binding 0 "a" _ [' '] _ (by decide) (by decide)
      (stops_cons.2 (by decide)) (.nested hinner (@Deconstructor.ElementsSpelled.close 2 [] .nil))
  have houter : Deconstructor.Spelled ⟨"P", [.binding 0 "a", .nested "Q" [.binding 0 "b"]]⟩
      ['(', 'P', ' ', 'a', '(', 'Q', ' ', 'b', ')', ')'] :=
    @Deconstructor.Spelled.parentheses _ [] [] _ .nil .nil (by decide) (stops_cons.2 (by decide)) ha
  obtain ⟨rfl, hposition⟩ := (hiff _ 10).1.2 ⟨_, by decide, houter⟩
  exact ⟨_, _, h, hc, rfl, after, hrun, hposition⟩

end Grammar.Parser.Reached

end DeclLang
