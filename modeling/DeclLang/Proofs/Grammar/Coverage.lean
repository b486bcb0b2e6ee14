import DeclLang.Grammar.Rules
import DeclLang.Proofs.Grammar.Reading

/-!
# What a rule passes

`Reads` goes from a text to what a rule does on it.  `Covers` goes the other way: it says of the
text that a rule has passed, and of the text that is left, what it must be for the result that the
rule has returned.  A part of a rule that may fail without the rule failing has passed blanks alone
(`Idle`).

Both are kept by sequencing and choice, so what a rule covers is put together along the grammar.
-/

namespace DeclLang

namespace Grammar

open Text Scanner

variable {α β : Type}

/-- A rule that returns has passed a text.  The result, that text and the text that is left are
related. -/
def Covers (x : OptionT ReadM α) (P : α → List Char → List Char → Prop) : Prop :=
  ∀ r a r', ReadM.run x.run r = (some a, r') →
    ∃ text, r.mark.Passes text r'.mark ∧ P a text r'.mark.rest

/-- A rule that fails has passed blanks alone. -/
def Idle (x : OptionT ReadM α) : Prop :=
  ∀ r r', ReadM.run x.run r = (none, r') → ∃ gap, Gap gap ∧ r.mark.Passes gap r'.mark

/-- Blanks and a word, behind which there is no character of a word. -/
def IsName (first : Char → Bool) (name : String) (text rest : List Char) : Prop :=
  ∃ gap, Gap gap ∧ text = gap ++ name.toList ∧ isWord first name = true ∧ Stops isNameChar rest

variable {x y : OptionT ReadM α} {P Q : α → List Char → List Char → Prop}

namespace Idle

theorem token (kind : TokenKind) (expected : String) : Idle (ReadM.token kind expected) := by
  intro r r' hrun
  rw [ReadM.run_token] at hrun
  cases hfound : kind.find? expected r.mark.skipSpace with
  | some found => rw [hfound] at hrun; cases hrun
  | none =>
    rw [hfound] at hrun
    cases hrun
    exact ⟨_, r.mark.gap_skipSpace, r.mark.skipSpace_passes⟩

theorem fail : Idle (failure : OptionT ReadM α) := by
  intro r r' hrun
  cases hrun
  exact ⟨[], .nil, .refl r.mark⟩

theorem attempt (x : OptionT ReadM α) : Idle (attempt x) := by
  intro r r' hrun
  rw [ReadM.run_attempt] at hrun
  rcases hx : ReadM.run x.run r with ⟨_ | a, r''⟩ <;> rw [hx] at hrun <;> cases hrun
  exact ⟨[], .nil, .refl r.mark⟩

theorem map (hx : Idle x) (f : α → β) : Idle (f <$> x) := by
  intro r r' hrun
  rw [ReadM.run_map] at hrun
  rcases hrun' : ReadM.run x.run r with ⟨_ | a, r''⟩ <;> rw [hrun'] at hrun <;> cases hrun
  exact hx r _ hrun'

theorem orElse (hx : Idle x) (hy : Idle y) : Idle (x <|> y) := by
  intro r r'' hrun
  rw [ReadM.run_orElse] at hrun
  rcases hrun' : ReadM.run x.run r with ⟨_ | a, r'⟩ <;> rw [hrun'] at hrun
  · obtain ⟨gap, hgap, hpass⟩ := hx r r' hrun'
    obtain ⟨gap', hgap', hpass'⟩ := hy r' r'' hrun
    exact ⟨gap ++ gap', hgap.append hgap', hpass.trans hpass'⟩
  · cases hrun

theorem identifier : Idle (identifier (m := ReadM)) := token .identifier ""

theorem typeName : Idle (typeName (m := ReadM)) := token .typeName ""

end Idle

namespace Covers

/-! ### Building a rule -/

theorem succeed {a : α} (h : ∀ rest, Q a [] rest) : Covers (pure a) Q := by
  intro r a' r' hrun
  cases hrun
  exact ⟨[], .refl r.mark, h _⟩

theorem fail : Covers (failure : OptionT ReadM α) Q := by
  intro r a r' hrun
  cases hrun

theorem next {f : α → OptionT ReadM β} {Q : β → List Char → List Char → Prop} (h : Covers x P)
    (hf : ∀ a, Covers (f a) fun b text rest =>
      ∀ before, P a before (text ++ rest) → Q b (before ++ text) rest) : Covers (x >>= f) Q := by
  intro r b r'' hrun
  obtain ⟨a, r', hx, hmore⟩ := ReadM.run_next_eq_some_iff.1 hrun
  obtain ⟨before, hpass, hbefore⟩ := h r a r' hx
  obtain ⟨text, hpass', htext⟩ := hf a r' b r'' hmore
  exact ⟨before ++ text, hpass.trans hpass', htext before (hpass'.1 ▸ hbefore)⟩

theorem mono (h : Covers x P) (hPQ : ∀ a text rest, P a text rest → Q a text rest) :
    Covers x Q := by
  intro r a r' hrun
  obtain ⟨text, hpass, htext⟩ := h r a r' hrun
  exact ⟨text, hpass, hPQ a text _ htext⟩

theorem map {f : α → β} {Q : β → List Char → List Char → Prop} (h : Covers x P)
    (hf : ∀ a text rest, P a text rest → Q (f a) text rest) : Covers (f <$> x) Q :=
  h.next fun a => succeed fun rest before hbefore => by simpa using hf a before rest hbefore

theorem orElse (h : Covers x Q) (hx : Idle x)
    (hy : Covers y fun a text rest => ∀ gap, Gap gap → Q a (gap ++ text) rest) :
    Covers (x <|> y) Q := by
  intro r a r'' hrun
  rw [ReadM.run_orElse] at hrun
  rcases hrun' : ReadM.run x.run r with ⟨_ | a', r'⟩ <;> rw [hrun'] at hrun
  · -- The blanks that x has passed before it failed stand before what y passes.
    obtain ⟨gap, hgap, hpass⟩ := hx r r' hrun'
    obtain ⟨text, hpass', htext⟩ := hy r' a r'' hrun
    exact ⟨gap ++ text, hpass.trans hpass', htext gap hgap⟩
  · cases hrun
    exact h r _ _ hrun'

theorem attempt (h : Covers x Q) : Covers (attempt x) Q :=
  fun r a r' hrun => h r a r' (ReadM.run_attempt_eq_some_iff.1 hrun)

/-- Nothing is passed by an attempt that fails. -/
theorem optional_attempt (h : Covers x P) :
    Covers (optional (Scanner.attempt x)) fun found text rest => match found with
      | some a => P a text rest
      | none => text = [] := by
  intro r found r' hrun
  rw [ReadM.run_optional, ReadM.run_attempt] at hrun
  rcases hx : ReadM.run x.run r with ⟨_ | a, r''⟩ <;> rw [hx] at hrun <;> cases hrun
  · exact ⟨[], .refl r.mark, rfl⟩
  · exact h r a _ hx

theorem optional (h : Covers x P) (hx : Idle x) :
    Covers (optional x) fun found text rest => match found with
      | some a => P a text rest
      | none => Gap text :=
  orElse (h.map fun _ _ _ htext => htext) (hx.map some)
    (succeed fun _ gap hgap => by simpa using hgap)

/-! ### Tokens -/

theorem token {kind : TokenKind} {expected : String} :
    Covers (ReadM.token kind expected) fun token text rest => ∃ gap m m', Gap gap ∧
      text = gap ++ token.toList ∧ kind.find? expected m = some (token, m') ∧ m'.rest = rest := by
  intro r token r' hrun
  rw [ReadM.run_token] at hrun
  cases hfound : kind.find? expected r.mark.skipSpace with
  | none => rw [hfound] at hrun; cases hrun
  | some found =>
    rw [hfound] at hrun
    cases hrun
    exact ⟨_, r.mark.skipSpace_passes.trans (TokenKind.passes_of_find? hfound), _, _, _,
      r.mark.gap_skipSpace, rfl, hfound, rfl⟩

theorem keyword (text : String) :
    Covers (keyword (m := ReadM) text) fun _ passed _ =>
      ∃ gap, Gap gap ∧ passed = gap ++ text.toList := by
  refine token.next fun token => succeed fun rest before htoken => ?_
  obtain ⟨gap, m, m', hgap, rfl, hfound, -⟩ := htoken
  obtain ⟨m'', -, heq⟩ := Option.map_eq_some_iff.1 hfound
  cases heq
  exact ⟨gap, hgap, List.append_nil _⟩

theorem identifier : Covers (identifier (m := ReadM)) (IsName isVariableStart) := by
  refine token.mono fun name text rest htoken => ?_
  obtain ⟨gap, m, m', hgap, rfl, hfound, rfl⟩ := htoken
  obtain ⟨hname, hstops⟩ := Mark.isWord_of_word? hfound
  exact ⟨gap, hgap, rfl, hname, hstops⟩

theorem typeName : Covers (typeName (m := ReadM)) (IsName isTypeStart) := by
  refine token.mono fun name text rest htoken => ?_
  obtain ⟨gap, m, m', hgap, rfl, hfound, rfl⟩ := htoken
  obtain ⟨hname, hstops⟩ := Mark.isWord_of_word? hfound
  exact ⟨gap, hgap, rfl, hname, hstops⟩

theorem indent : Covers (indent (m := ReadM)) fun width text rest =>
    ∃ tail pad, (∀ c ∈ tail, isLineBlank c = true) ∧ (∀ c ∈ pad, isPad c = true) ∧
      pad.length = width ∧ width ≠ 0 ∧ text = tail ++ '\n' :: pad ∧ Stops isPad rest := by
  intro r width r' hrun
  rw [ReadM.run_indent] at hrun
  cases hindent : r.mark.indent? with
  | none => rw [hindent] at hrun; cases hrun
  | some found =>
    rw [hindent] at hrun
    cases hrun
    obtain ⟨tail, pad, htail, hpad, hlength, hwidth, hstops, hpass⟩ :=
      Mark.indent?_eq_some_iff.1 hindent
    exact ⟨_, hpass, tail, pad, htail, hpad, hlength, hwidth, rfl, hstops⟩

/-! ### Diagnostics and bounds -/

theorem report (kind : Diagnostic.Kind) :
    Covers (report (m := ReadM) kind) fun _ text _ => text = [] := by
  intro r a r' hrun
  cases hrun
  exact ⟨[], .refl r.mark, rfl⟩

theorem refuse (kind : Diagnostic.Kind) : Covers (refuse kind : OptionT ReadM α) Q :=
  (report kind).next fun _ => fail

theorem expect (text : String) (kind : Diagnostic.Kind) :
    Covers (expect (m := ReadM) text kind) fun _ passed _ =>
      ∃ gap, Gap gap ∧ passed = gap ++ text.toList :=
  (keyword text).orElse ((Idle.token .keyword text).map fun _ => ()) (refuse kind)

theorem bound : Covers (bound (m := ReadM)) fun _ text _ => text = [] := by
  intro r a r' hrun
  cases hrun
  exact ⟨[], .refl r.mark, rfl⟩

end Covers

end Grammar

end DeclLang
