import DeclLang.Grammar.Rules
import DeclLang.Proofs.Grammar.Reading

/-!
# What a rule does on a given text

`Reads x cs found rest` says that the rule `x` ends with the result `found` on every text that goes
on with `cs`, and leaves the text at `rest`.  Neither the place nor the diagnostics of the reader
have an influence, so the outcomes of a rule are put together from those of its parts:

* `Reads.next_some`, `Reads.orElse_none` and so on follow the way a rule is built;
* `Reads.keyword_some`, `Reads.typeName_some` and so on are the tokens;
* `Reads.many_some` is a list, with what one element does as a hypothesis.

A token passes the blanks before it whether it is there or not, so the hypotheses on tokens are
about `unblank cs`, the text behind them.
-/

namespace DeclLang

namespace Text

/-! ### Texts without leading blanks -/

/-- The text behind its leading blanks. -/
def unblank (cs : List Char) : List Char := cs.dropWhile isBlank

theorem unblank_lineFeed (cs : List Char) : unblank ('\n' :: cs) = unblank cs :=
  List.dropWhile_cons_of_pos (by decide)

theorem unblank_eq_self {cs : List Char} (h : Stops isBlank cs) : unblank cs = cs :=
  @dropWhile_append_of_stops isBlank [] cs (by simp) h

theorem unblank_gap {gap cs : List Char} (h : Gap gap) (hcs : Stops isBlank cs) :
    unblank (gap ++ cs) = cs :=
  dropWhile_append_of_stops h hcs

theorem stops_unblank (cs : List Char) : Stops isBlank (unblank cs) := stops_dropWhile isBlank cs

theorem unblank_unblank (cs : List Char) : unblank (unblank cs) = unblank cs :=
  unblank_eq_self (stops_unblank cs)

/-! ### Written texts -/

/-- A text without the character that comes next is a prefix of what comes before it. -/
theorem prefix_of_prefix_append_cons {as bs ds : List Char} {c : Char}
    (h : as <+: bs ++ c :: ds) (hc : c ∉ as) : as <+: bs := by
  induction as generalizing bs with
  | nil => exact List.nil_prefix
  | cons a as ih =>
    cases bs with
    | nil =>
      obtain rfl := (List.cons_prefix_cons.1 h).1
      exact absurd List.mem_cons_self hc
    | cons b bs =>
      obtain ⟨rfl, hmore⟩ := List.cons_prefix_cons.1 h
      exact List.cons_prefix_cons.2 ⟨rfl, ih hmore fun hmem => hc (List.mem_cons_of_mem _ hmem)⟩

/-- A list has no more elements than characters if none is written as nothing. -/
theorem length_le_length_flatMap {α : Type} {write : α → List Char} (hwrite : ∀ a, write a ≠ [])
    (as : List α) : as.length ≤ (as.flatMap write).length := by
  induction as with
  | nil => exact le_rfl
  | cons a as ih =>
    have := List.length_pos_iff.2 (hwrite a)
    rw [List.flatMap_cons, List.length_append, List.length_cons]
    omega

end Text

namespace Grammar

open Text Scanner

/-! ### Outcomes -/

/-- Where the text goes on with `cs`, the rule ends with this result and leaves it at `rest`. -/
def Reads {α : Type} (x : OptionT ReadM α) (cs : List Char) (found : Option α)
    (rest : List Char) : Prop :=
  ∀ r, r.mark.rest = cs → ∃ r', ReadM.run x.run r = (found, r') ∧ r'.mark.rest = rest

namespace Reads

variable {α β : Type} {x y : OptionT ReadM α} {f : α → OptionT ReadM β} {a : α} {b : Option β}
  {found : Option α} {cs cs' cs'' rest : List Char}

theorem succeed (a : α) (cs : List Char) : Reads (pure a) cs (some a) cs :=
  fun r hr => ⟨r, rfl, hr⟩

theorem next_some (h : Reads x cs (some a) cs') (hf : Reads (f a) cs' b cs'') :
    Reads (x >>= f) cs b cs'' := by
  intro r hr
  obtain ⟨r', hrun, hr'⟩ := h r hr
  rw [ReadM.run_next, hrun]
  exact hf r' hr'

theorem next_none (h : Reads x cs none cs') : Reads (x >>= f) cs none cs' := by
  intro r hr
  obtain ⟨r', hrun, hr'⟩ := h r hr
  rw [ReadM.run_next, hrun]
  exact ⟨r', rfl, hr'⟩

theorem map_some (f : α → β) (h : Reads x cs (some a) cs') : Reads (f <$> x) cs (some (f a)) cs' :=
  h.next_some (succeed (f a) cs')

theorem map_none (f : α → β) (h : Reads x cs none cs') : Reads (f <$> x) cs none cs' :=
  h.next_none

theorem orElse_some (h : Reads x cs (some a) cs') : Reads (x <|> y) cs (some a) cs' := by
  intro r hr
  obtain ⟨r', hrun, hr'⟩ := h r hr
  rw [ReadM.run_orElse, hrun]
  exact ⟨r', rfl, hr'⟩

theorem orElse_none (h : Reads x cs none cs') (hy : Reads y cs' found cs'') :
    Reads (x <|> y) cs found cs'' := by
  intro r hr
  obtain ⟨r', hrun, hr'⟩ := h r hr
  rw [ReadM.run_orElse, hrun]
  exact hy r' hr'

theorem attempt_some (h : Reads x cs (some a) cs') : Reads (attempt x) cs (some a) cs' := by
  intro r hr
  obtain ⟨r', hrun, hr'⟩ := h r hr
  rw [ReadM.run_attempt, hrun]
  exact ⟨r', rfl, hr'⟩

theorem attempt_none (h : Reads x cs none cs') : Reads (attempt x) cs none cs := by
  intro r hr
  obtain ⟨r', hrun, -⟩ := h r hr
  rw [ReadM.run_attempt, hrun]
  exact ⟨_, rfl, hr⟩

theorem optional_some (h : Reads x cs (some a) cs') : Reads (optional x) cs (some (some a)) cs' :=
  (h.map_some some).orElse_some

theorem optional_none (h : Reads x cs none cs') : Reads (optional x) cs (some none) cs' :=
  (h.map_none some).orElse_none (succeed none cs')

theorem bound_some (cs : List Char) : Reads bound cs (some (cs.length + 1)) cs := by
  rintro r rfl
  exact ⟨r, rfl, rfl⟩

/-- A list is read up to where an element fails, if the bound allows.  Whatever may follow an
element, another one may and the end of the list does. -/
theorem many_some {follows : List Char → Prop} {write : α → List Char} {as : List α} {k : Nat}
    (hend : Reads x cs none rest) (hcs : follows cs)
    (hwrite : ∀ a more, follows (write a ++ more))
    (has : ∀ a ∈ as, ∀ more, follows more → Reads x (write a ++ more) (some a) more)
    (hk : as.length < k) : Reads (many x k) (as.flatMap write ++ cs) (some as) rest := by
  induction as generalizing k with
  | nil =>
    obtain ⟨k, rfl⟩ := Nat.exists_eq_succ_of_ne_zero hk.ne'
    exact hend.optional_none.next_some (succeed [] rest)
  | cons a as ih =>
    obtain ⟨k, rfl⟩ := Nat.exists_eq_succ_of_ne_zero (Nat.ne_zero_of_lt hk)
    -- Behind the first element is another one, or the end of the list.
    have hmore : follows (as.flatMap write ++ cs) := by
      cases as with
      | nil => exact hcs
      | cons a' as => rw [List.flatMap_cons, List.append_assoc]; exact hwrite a' _
    have hfirst := has a (by simp) _ hmore
    have hothers := ih (fun a' ha' => has a' (by simp [ha'])) (Nat.lt_of_succ_lt_succ hk)
    rw [List.flatMap_cons, List.append_assoc]
    exact hfirst.optional_some.next_some (hothers.next_some (succeed (a :: as) rest))

/-! ### Tokens -/

theorem keyword_some {text : String} (h : unblank cs = text.toList ++ rest) :
    Reads (keyword text) cs (some ()) rest := by
  rintro r rfl
  have hpass : r.mark.skipSpace.Passes text.toList _ := Mark.passes_of_rest_eq h
  rw [ReadM.run_keyword, Mark.literal?_eq_some_iff.2 hpass]
  exact ⟨_, rfl, rfl⟩

theorem keyword_none {text : String} (h : unblank cs = rest) (hrest : ¬ text.toList <+: rest) :
    Reads (keyword text) cs none rest := by
  rintro r rfl
  subst h
  rw [ReadM.run_keyword, Mark.literal?_eq_none_iff.2 hrest]
  exact ⟨_, rfl, rfl⟩

theorem keyword_none_of_stops {text : String} {c : Char} {ds : List Char}
    (h : unblank cs = rest) (htext : text.toList = c :: ds) (hrest : Stops (· == c) rest) :
    Reads (keyword text) cs none rest := by
  refine keyword_none h ?_
  rw [htext]
  rintro ⟨more, rfl⟩
  simp at hrest

theorem expect_some {text : String} {kind : Diagnostic.Kind}
    (h : unblank cs = text.toList ++ rest) : Reads (expect text kind) cs (some ()) rest :=
  (keyword_some h).orElse_some

theorem exists_word? {first : Char → Bool} {word : String} {m : Mark}
    (hword : isWord first word = true) (h : m.rest = word.toList ++ rest)
    (hrest : Stops isNameChar rest) :
    ∃ m', m.word? first isNameChar = some (word, m') ∧ m'.rest = rest := by
  obtain ⟨c, ds, rfl, hc, hds⟩ := isWord_iff.1 hword
  rw [String.toList_ofList] at h
  exact ⟨_, Mark.word?_eq_some_iff.2 ⟨c, ds, rfl, hc, hds, hrest, Mark.passes_of_rest_eq h⟩, rfl⟩

theorem identifier_some {name : String} (hname : isWord isVariableStart name = true)
    (h : unblank cs = name.toList ++ rest) (hrest : Stops isNameChar rest) :
    Reads identifier cs (some name) rest := by
  rintro r rfl
  obtain ⟨m', hfound, hm'⟩ := @exists_word? _ _ _ r.mark.skipSpace hname h hrest
  rw [ReadM.run_identifier, hfound]
  exact ⟨_, rfl, hm'⟩

theorem typeName_some {name : String} (hname : isWord isTypeStart name = true)
    (h : unblank cs = name.toList ++ rest) (hrest : Stops isNameChar rest) :
    Reads typeName cs (some name) rest := by
  rintro r rfl
  obtain ⟨m', hfound, hm'⟩ := @exists_word? _ _ _ r.mark.skipSpace hname h hrest
  rw [ReadM.run_typeName, hfound]
  exact ⟨_, rfl, hm'⟩

theorem identifier_none (h : unblank cs = rest) (hrest : Stops isVariableStart rest) :
    Reads identifier cs none rest := by
  rintro r rfl
  subst h
  rw [ReadM.run_identifier, Mark.word?_eq_none_iff.2 hrest]
  exact ⟨_, rfl, rfl⟩

theorem typeName_none (h : unblank cs = rest) (hrest : Stops isTypeStart rest) :
    Reads typeName cs none rest := by
  rintro r rfl
  subst h
  rw [ReadM.run_typeName, Mark.word?_eq_none_iff.2 hrest]
  exact ⟨_, rfl, rfl⟩

theorem indent_some {pad : List Char} (hpad : ∀ c ∈ pad, isPad c = true) (hne : pad ≠ [])
    (hrest : Stops isPad rest) :
    Reads indent ('\n' :: (pad ++ rest)) (some pad.length) rest := by
  intro r hr
  have hfound : r.mark.indent? = some (pad.length, ⟨r.mark.place.afterAll ('\n' :: pad), rest⟩) :=
    Mark.indent?_eq_some_iff.2 ⟨[], pad, by simp, hpad, rfl, by simpa using hne, hrest,
      Mark.passes_of_rest_eq hr⟩
  rw [ReadM.run_indent, hfound]
  exact ⟨_, rfl, rfl⟩

theorem indent_none (h : ∀ tail pad more, (∀ c ∈ tail, isLineBlank c = true) →
    (∀ c ∈ pad, isPad c = true) → pad ≠ [] → cs ≠ tail ++ '\n' :: pad ++ more) :
    Reads indent cs none cs := by
  intro r hr
  cases hfound : r.mark.indent? with
  | none =>
    rw [ReadM.run_indent, hfound]
    exact ⟨r, rfl, hr⟩
  | some found =>
    obtain ⟨tail, pad, htail, hpad, hlength, hwidth, -, hpass⟩ :=
      Mark.indent?_eq_some_iff.1 hfound
    refine absurd ?_ (h tail pad found.2.rest htail hpad ?_)
    · rw [← hr, hpass.1]
    · rintro rfl
      exact hwidth hlength.symm

/-- The line goes on. -/
theorem indent_none_of_stops (h : Stops isBlank cs) : Reads indent cs none cs := by
  refine indent_none fun tail pad more htail _ _ hcs => ?_
  subst hcs
  cases tail with
  | nil => exact absurd (stops_cons.1 h) (by decide)
  | cons c tail =>
    have hc := isBlank_of_isLineBlank (htail c List.mem_cons_self)
    rw [stops_cons.1 h] at hc
    cases hc

/-- The next line is not indented. -/
theorem indent_none_of_lineFeed (h : Stops isPad cs) :
    Reads indent ('\n' :: cs) none ('\n' :: cs) := by
  refine indent_none fun tail pad more htail hpad hne hcs => ?_
  cases tail with
  | nil =>
    obtain rfl : cs = pad ++ more := List.tail_eq_of_cons_eq hcs
    cases pad with
    | nil => exact hne rfl
    | cons c pad =>
      have hc := hpad c List.mem_cons_self
      rw [stops_cons.1 h] at hc
      cases hc
  | cons c tail =>
    obtain rfl : '\n' = c := List.head_eq_of_cons_eq hcs
    exact absurd (htail '\n' List.mem_cons_self) (by decide)

end Reads

end Grammar

end DeclLang
