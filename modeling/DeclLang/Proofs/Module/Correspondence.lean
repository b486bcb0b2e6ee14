import Mathlib.Data.List.Forall2
import DeclLang.Proofs.Module.Cut

/-!
# Texts that are read alike

Two texts may differ in what does not matter to a rule: in what stands before or behind the part
that it reads, or in the blanks that end a line.  A `Correspondence` is a relation between the marks
of two texts that is kept by passing blanks, by passing what stands between blanks, and by passing
the end of a line.  Rules are made of nothing else, so at marks that correspond every rule returns
the same, ends at marks that correspond, and records the same things there
(`Correspondence.declaration`).

Where the first text ends, the second one may go on, if not with anything that could be part of the
declaration before.  It may go on with another declaration; so names and the keyword of a type
definition, which begin one, are compared before the end of the first text only.
-/

namespace DeclLang

open Text

namespace Text

/-! ### Between blanks -/

/-- The text is not empty and has no blank. -/
def Solid (text : String) : Prop := text.toList ≠ [] ∧ ∀ c ∈ text.toList, isBlank c = false

/-- The text has no blank, and nothing that a declaration could begin with. -/
def IsSign (text : String) : Prop :=
  text.toList ≠ [] ∧ ∀ c ∈ text.toList, isBlank c = false ∧ isVariableStart c = false

instance (text : String) : Decidable (Solid text) :=
  @instDecidableAnd _ _ inferInstance (List.decidableBAll _ _)

instance (text : String) : Decidable (IsSign text) :=
  @instDecidableAnd _ _ inferInstance (List.decidableBAll _ _)

theorem IsSign.solid {text : String} (h : IsSign text) : Solid text :=
  ⟨h.1, fun c hc => (h.2 c hc).1⟩

namespace Mark

variable {m m' : Mark} {cs : List Char}

/-- The text up to the next blank. -/
def solid (m : Mark) : List Char := m.rest.takeWhile fun c => !isBlank c

theorem solid_of_passes (h : m.Passes cs m') (hcs : ∀ c ∈ cs, isBlank c = false) :
    m.solid = cs ++ m'.solid := by
  rw [solid, h.1, List.takeWhile_append_of_pos fun c hc => by simp [hcs c hc], solid]

theorem solid_append (m : Mark) : ∃ rest, m.rest = m.solid ++ rest ∧
    Stops (fun c => !isBlank c) rest :=
  ⟨_, List.takeWhile_append_dropWhile.symm, stops_dropWhile _ m.rest⟩

theorem stops_solid {p : Char → Bool} (h : Stops p m.rest) : Stops p m.solid :=
  h.of_isPrefix (List.takeWhile_prefix _)

end Mark

end Text

namespace Grammar

open Scanner

theorem TokenKind.solid_of_find? {kind : TokenKind} {expected token : String} {m m' : Mark}
    (hexpected : kind = .keyword → Solid expected)
    (h : kind.find? expected m = some (token, m')) : Solid token := by
  have word {first : Char → Bool} (hfirst : ∀ c, first c = true → isNameChar c = true)
      (h : m.word? first isNameChar = some (token, m')) : Solid token := by
    have hword := (Mark.isWord_of_word? h).1
    refine ⟨?_, fun d hd => isBlank_eq_false_of_isNameChar
      (isNameChar_of_mem_word hfirst hword d hd)⟩
    obtain ⟨c, cs, rfl, -⟩ := isWord_iff.1 hword
    simp
  cases kind with
  | keyword =>
    obtain ⟨m'', -, heq⟩ := Option.map_eq_some_iff.1 h
    cases heq
    exact hexpected rfl
  | identifier => exact word (fun _ => isNameChar_of_isVariableStart) h
  | typeName => exact word (fun _ => isNameChar_of_isTypeStart) h

/-- Whether there is a token depends on the text up to the next blank. -/
theorem TokenKind.find?_of_solid_eq {kind : TokenKind} {expected token : String} {m m' n : Mark}
    (hexpected : kind = .keyword → Solid expected) (hsolid : m'.solid = m.solid)
    (h : kind.find? expected m = some (token, n)) :
    ∃ n', kind.find? expected m' = some (token, n') := by
  obtain ⟨-, htoken⟩ := TokenKind.solid_of_find? hexpected h
  obtain ⟨rest, hrest, hblank⟩ := m'.solid_append
  rw [hsolid, Mark.solid_of_passes (TokenKind.passes_of_find? h) htoken, List.append_assoc] at hrest
  have word {first : Char → Bool} (h : m.word? first isNameChar = some (token, n)) :
      ∃ n', m'.word? first isNameChar = some (token, n') := by
    obtain ⟨hword, hstop⟩ := Mark.isWord_of_word? h
    have hstop' : Stops isNameChar (n.solid ++ rest) := by
      cases hn : n.solid with
      | nil => exact hblank.mono fun d hd => by simp [isBlank_eq_false_of_isNameChar hd]
      | cons d ds => exact stops_cons.2 (stops_cons.1 (hn ▸ Mark.stops_solid hstop))
    obtain ⟨n', hfound, -⟩ := Reads.exists_word? hword hrest hstop'
    exact ⟨n', hfound⟩
  cases kind with
  | keyword =>
    obtain ⟨n', -, heq⟩ := Option.map_eq_some_iff.1 h
    cases heq
    exact ⟨_, by rw [find?, Mark.literal?_eq_some_iff.2 (Mark.passes_of_rest_eq hrest)]; rfl⟩
  | identifier => exact word h
  | typeName => exact word h

/-! ### Corresponding marks -/

/-- A relation between the marks of two texts that tokens and the ends of lines respect. -/
structure Correspondence (M : Mark → Mark → Prop) : Prop where
  /-- Behind the blanks the marks correspond again. -/
  skipSpace {m m' : Mark} : M m m' → M m.skipSpace m'.skipSpace
  /-- Up to the next blank the texts are equal. -/
  solid {m m' : Mark} : M m m' → m.rest ≠ [] → m'.solid = m.solid
  /-- Where the first text ends, the second one ends, goes on behind a blank, or with another
  declaration. -/
  atEnd {m m' : Mark} : M m m' → m.rest = [] →
    Stops (fun c => !isBlank c && !isVariableStart c) m'.rest
  /-- Behind a text without blanks the marks correspond again. -/
  passes {m m' n n' : Mark} {cs : List Char} : M m m' → (∀ c ∈ cs, isBlank c = false) →
    m.Passes cs n → m'.Passes cs n' → M n n'
  /-- An indentation has the same width, and behind it the marks correspond again. -/
  indent? {m m' : Mark} : M m m' →
    Option.Rel (fun found found' => found'.1 = found.1 ∧ M found.2 found'.2) m.indent? m'.indent?

variable {M : Mark → Mark → Prop} {α β : Type} {r r' : Reading}

/-- What begins a declaration is not looked for where the first text ends. -/
def TokenKind.Inner (kind : TokenKind) (expected : String) : Prop :=
  match kind with
  | .keyword => IsSign expected
  | .identifier => False
  | .typeName => True

/-- Such a token begins no declaration. -/
theorem TokenKind.Inner.stops {kind : TokenKind} {expected token : String} {m m' : Mark}
    (hkind : kind.Inner expected) (h : kind.find? expected m = some (token, m')) :
    Stops isVariableStart token.toList := by
  cases kind with
  | keyword =>
    obtain ⟨m'', -, heq⟩ := Option.map_eq_some_iff.1 h
    cases heq
    exact fun c hc => (hkind.2 c (List.mem_of_mem_head? hc)).2
  | identifier => exact hkind.elim
  | typeName =>
    obtain ⟨c, cs, rfl, hc, -⟩ := Mark.word?_eq_some_iff.1 h
    simpa using isVariableStart_eq_false_of_isTypeStart hc

/-- At corresponding marks there is the same token, or none. -/
theorem Correspondence.find? (C : Correspondence M) {kind : TokenKind} {expected : String}
    {m m' : Mark} (h : M m m') (hexpected : kind = .keyword → Solid expected)
    (hend : m.rest = [] → kind.Inner expected) :
    Option.Rel (fun found found' => found'.1 = found.1 ∧ M found.2 found'.2)
      (kind.find? expected m) (kind.find? expected m') := by
  cases hfound : kind.find? expected m with
  | some found =>
    obtain ⟨token, n⟩ := found
    obtain ⟨hne, htoken⟩ := TokenKind.solid_of_find? hexpected hfound
    have hpass := TokenKind.passes_of_find? hfound
    have hmore : m.rest ≠ [] := fun hnil =>
      hne (List.append_eq_nil_iff.1 (hpass.1.symm.trans hnil)).1
    obtain ⟨n', hfound'⟩ := TokenKind.find?_of_solid_eq hexpected (C.solid h hmore) hfound
    rw [hfound']
    exact .some ⟨rfl, C.passes h htoken hpass (TokenKind.passes_of_find? hfound')⟩
  | none =>
    cases hfound' : kind.find? expected m' with
    | none => exact .none
    | some found =>
      obtain ⟨token, n'⟩ := found
      by_cases hmore : m.rest = []
      · -- The token would have to be the beginning of a declaration.
        obtain ⟨hne, htoken⟩ := TokenKind.solid_of_find? hexpected hfound'
        obtain ⟨c, cs, hcs⟩ := List.exists_cons_of_ne_nil hne
        have hstop := C.atEnd h hmore
        have hinner := (hend hmore).stops hfound'
        rw [(TokenKind.passes_of_find? hfound').1, hcs, List.cons_append, stops_cons] at hstop
        rw [hcs, stops_cons] at hinner
        simp [hinner, htoken c (hcs ▸ List.mem_cons_self)] at hstop
      · obtain ⟨n, hfound''⟩ := TokenKind.find?_of_solid_eq hexpected (C.solid h hmore).symm hfound'
        rw [hfound] at hfound''
        cases hfound''

/-- Passing leads to marks of the text only. -/
theorem Correspondence.on (C : Correspondence M) (text : String) :
    Correspondence fun m m' => m.On text ∧ M m m' where
  skipSpace h := ⟨h.1.skipSpace, C.skipSpace h.2⟩
  solid h := C.solid h.2
  atEnd h := C.atEnd h.2
  passes h hcs hpass hpass' := ⟨h.1.passes hpass, C.passes h.2 hcs hpass hpass'⟩
  indent? {m m'} h := by
    have hfound := C.indent? h.2
    cases hm : m.indent? <;> cases hm' : m'.indent? <;> rw [hm, hm'] at hfound
    · exact .none
    · cases hfound
    · cases hfound
    · obtain ⟨hsame, hmark⟩ := Option.rel_some_some.1 hfound
      obtain ⟨tail, pad, -, -, -, -, -, hpass⟩ := Mark.indent?_eq_some_iff.1 hm
      exact .some ⟨hsame, h.1.passes hpass, hmark⟩

/-! ### Readers side by side -/

/-- The same thing is wrong in both texts, at marks that correspond. -/
structure Counterpart (M : Mark → Mark → Prop) (d d' : Diagnostic) : Prop where
  kind : d'.kind = d.kind
  filename : d'.location.filename = d.location.filename
  place : ∃ m m', M m m' ∧ d.location.place = m.place ∧ d'.location.place = m'.place

theorem Counterpart.eq_of_place {d d' : Diagnostic} {p : Place} (h : Counterpart M d d')
    (hp : ∀ m m', M m m' → d.location.place = m.place → m'.place = p) :
    d' = { d with location.place := p } := by
  obtain ⟨hkind, hname, m, m', hm, hplace, hplace'⟩ := h
  rcases d with ⟨kind, filename, place⟩
  rcases d' with ⟨kind', filename', place'⟩
  rw [hp m m' hm hplace] at hplace'
  simp_all

/-- Where counterparts are known, the list of them is. -/
theorem eq_map_of_forall₂ {α β : Type} {R : α → β → Prop} {f : α → β} {as : List α} {bs : List β}
    (h : List.Forall₂ R as bs) (hR : ∀ a ∈ as, ∀ b, R a b → b = f a) : bs = as.map f := by
  induction h with
  | nil => rfl
  | @cons a b as bs hab _ ih =>
    rw [List.map_cons, ← hR a List.mem_cons_self b hab,
      ← ih fun a ha => hR a (List.mem_cons_of_mem _ ha)]

/-- The readers are at marks that correspond, and have recorded the same. -/
structure Alike (M : Mark → Mark → Prop) (r r' : Reading) : Prop where
  filename : r'.filename = r.filename
  mark : M r.mark r'.mark
  recorded : List.Forall₂ (Counterpart M) r.recorded r'.recorded

/-- The rules return the same to the two readers, and leave them alike. -/
def Parallel (M : Mark → Mark → Prop) (x y : OptionT ReadM α) (r r' : Reading) : Prop :=
  (ReadM.run y.run r').1 = (ReadM.run x.run r).1 ∧
    Alike M (ReadM.run x.run r).2 (ReadM.run y.run r').2

namespace Parallel

variable {x y : OptionT ReadM α}

theorem elim (h : Parallel M x y r r') : ∃ found r₁ r₁', ReadM.run x.run r = (found, r₁) ∧
    ReadM.run y.run r' = (found, r₁') ∧ Alike M r₁ r₁' := by
  obtain ⟨hfound, halike⟩ := h
  exact ⟨(ReadM.run x.run r).1, _, _, rfl, by rw [← hfound], halike⟩

theorem succeed (a : α) (h : Alike M r r') : Parallel M (pure a) (pure a) r r' := ⟨rfl, h⟩

theorem fail (h : Alike M r r') : Parallel M (failure : OptionT ReadM α) failure r r' := ⟨rfl, h⟩

theorem next {f g : α → OptionT ReadM β} (h : Parallel M x y r r')
    (hf : ∀ a r₁ r₁', Alike M r₁ r₁' → Parallel M (f a) (g a) r₁ r₁') :
    Parallel M (x >>= f) (y >>= g) r r' := by
  obtain ⟨found, r₁, r₁', hx, hy, halike⟩ := h.elim
  rw [Parallel, ReadM.run_next, ReadM.run_next, hx, hy]
  cases found with
  | none => exact ⟨rfl, halike⟩
  | some a => exact hf a r₁ r₁' halike

theorem orElse {x' y' : OptionT ReadM α} (h : Parallel M x y r r')
    (h' : ∀ r₁ r₁', ReadM.run x.run r = (none, r₁) → Alike M r₁ r₁' →
      Parallel M x' y' r₁ r₁') :
    Parallel M (x <|> x') (y <|> y') r r' := by
  obtain ⟨found, r₁, r₁', hx, hy, halike⟩ := h.elim
  rw [Parallel, ReadM.run_orElse, ReadM.run_orElse, hx, hy]
  cases found with
  | none => exact h' r₁ r₁' hx halike
  | some a => exact ⟨rfl, halike⟩

theorem map (f : α → β) (h : Parallel M x y r r') : Parallel M (f <$> x) (f <$> y) r r' :=
  h.next fun a _ _ halike => succeed (f a) halike

protected theorem optional (h : Parallel M x y r r') :
    Parallel M (optional x) (optional y) r r' :=
  (h.map some).orElse fun _ _ _ halike => succeed none halike

theorem attempt (halike : Alike M r r') (h : Parallel M x y r r') :
    Parallel M (Scanner.attempt x) (Scanner.attempt y) r r' := by
  obtain ⟨found, r₁, r₁', hx, hy, hend⟩ := h.elim
  rw [Parallel, ReadM.run_attempt, ReadM.run_attempt, hx, hy]
  cases found with
  | none => exact ⟨rfl, hend.filename, halike.mark, hend.recorded⟩
  | some a => exact ⟨rfl, hend⟩

theorem report (kind : Diagnostic.Kind) (h : Alike M r r') :
    Parallel M (Grammar.report kind) (Grammar.report kind) r r' := by
  refine ⟨rfl, h.filename, h.mark, ?_⟩
  exact List.rel_append h.recorded
    (.cons ⟨rfl, h.filename, _, _, h.mark, rfl, rfl⟩ .nil)

theorem refuse (kind : Diagnostic.Kind) (h : Alike M r r') :
    Parallel M (refuse kind : OptionT ReadM α) (Grammar.refuse kind) r r' :=
  (report kind h).next fun _ _ _ halike => fail halike

/-- The bounds may be different, as long as there are fewer characters left. -/
theorem many (hx : ∀ r r', Alike M r r' → Parallel M x x r r')
    (hless : ∀ r a r₁, ReadM.run x.run r = (some a, r₁) →
      r₁.mark.rest.length < r.mark.rest.length) {k k' : Nat} (halike : Alike M r r')
    (hk : r.mark.rest.length < k) (hk' : r'.mark.rest.length < k') :
    Parallel M (Grammar.many x k) (Grammar.many x k') r r' := by
  induction k generalizing k' r r' with
  | zero => omega
  | succ k ih =>
    obtain ⟨k', rfl⟩ := Nat.exists_eq_succ_of_ne_zero (Nat.ne_zero_of_lt hk')
    obtain ⟨found, r₁, r₁', hrun, hrun', halike'⟩ := (hx r r' halike).elim
    rw [Parallel, many_succ, many_succ, ReadM.run_next, ReadM.run_next, ReadM.run_optional,
      ReadM.run_optional, hrun, hrun']
    cases found with
    | none => exact ⟨rfl, halike'⟩
    | some a =>
      have hr₁ := hless r a r₁ hrun
      have hr₁' := hless r' a r₁' hrun'
      exact (ih halike' (by omega) (by omega)).next fun as _ _ h => succeed (a :: as) h

/-- Each reader takes its own bound. -/
theorem bound {f g : Nat → OptionT ReadM α}
    (h : Parallel M (f (r.mark.rest.length + 1)) (g (r'.mark.rest.length + 1)) r r') :
    Parallel M (Grammar.bound >>= f) (Grammar.bound >>= g) r r' := h

end Parallel

/-! ### The rules of the grammar -/

namespace Correspondence

variable (C : Correspondence M)
include C

theorem token {kind : TokenKind} {expected : String} (h : Alike M r r')
    (hexpected : kind = .keyword → Solid expected)
    (hend : r.mark.skipSpace.rest = [] → kind.Inner expected) :
    Parallel M (ReadM.token kind expected) (ReadM.token kind expected) r r' := by
  have hspace := C.skipSpace h.mark
  have hfound := C.find? hspace hexpected hend
  rw [Parallel, ReadM.run_token, ReadM.run_token]
  cases hm : kind.find? expected r.mark.skipSpace <;>
    cases hm' : kind.find? expected r'.mark.skipSpace <;> rw [hm, hm'] at hfound
  · exact ⟨rfl, h.filename, hspace, h.recorded⟩
  · cases hfound
  · cases hfound
  · obtain ⟨⟨hsame, hmark⟩⟩ := hfound
    exact ⟨congrArg some hsame, h.filename, hmark, h.recorded⟩

theorem sign {text : String} (htext : IsSign text) (h : Alike M r r') :
    Parallel M (keyword text) (keyword text) r r' := by
  have htoken : Parallel M (ReadM.token .keyword text) (ReadM.token .keyword text) r r' :=
    C.token h (fun _ => htext.solid) fun _ => htext
  exact htoken.next fun _ _ _ h => .succeed () h

theorem typeName (h : Alike M r r') : Parallel M typeName typeName r r' :=
  C.token h nofun fun _ => trivial

theorem identifier (h : Alike M r r') (hmore : r.mark.skipSpace.rest ≠ []) :
    Parallel M identifier identifier r r' :=
  C.token h nofun fun hend => absurd hend hmore

theorem indent (h : Alike M r r') : Parallel M indent indent r r' := by
  have hfound := C.indent? h.mark
  rw [Parallel, ReadM.run_indent, ReadM.run_indent]
  cases hm : r.mark.indent? <;> cases hm' : r'.mark.indent? <;> rw [hm, hm'] at hfound
  · exact ⟨rfl, h⟩
  · cases hfound
  · cases hfound
  · obtain ⟨⟨hsame, hmark⟩⟩ := hfound
    exact ⟨congrArg some hsame, h.filename, hmark, h.recorded⟩

theorem expect {text : String} (htext : IsSign text) (kind : Diagnostic.Kind) (h : Alike M r r') :
    Parallel M (expect text kind) (Grammar.expect text kind) r r' :=
  (C.sign htext h).orElse fun _ _ _ halike => .refuse kind halike

theorem arrayType (h : Alike M r r') : Parallel M arrayType arrayType r r' := by
  refine .attempt h ((C.sign (by decide) h).next fun _ _ _ h => ?_)
  refine (C.typeName h).next fun element _ _ h => ?_
  exact (C.expect (by decide) _ h).next fun _ _ _ h => .succeed _ h

theorem mapType (h : Alike M r r') : Parallel M mapType mapType r r' := by
  refine .attempt h ((C.sign (by decide) h).next fun _ _ _ h => ?_)
  refine (C.typeName h).next fun key _ _ h => ?_
  refine (C.expect (by decide) _ h).next fun _ _ _ h => ?_
  refine ((C.typeName h).orElse fun _ _ _ h => .refuse _ h).next fun value _ _ h => ?_
  exact (C.expect (by decide) _ h).next fun _ _ _ h => .succeed _ h

theorem typeExpr (h : Alike M r r') : Parallel M typeExpr typeExpr r r' := by
  refine ((C.typeName h).map _).orElse fun _ _ _ h => (C.arrayType h).orElse fun _ _ _ h => ?_
  refine (C.mapType h).orElse fun _ _ _ h => ?_
  exact (C.sign (by decide) h).next fun _ _ _ h => .succeed _ h

theorem typeExprs (h : Alike M r r') : Parallel M typeExprs typeExprs r r' := by
  have hless (r : Reading) (t : TypeExpr) (r₁ : Reading)
      (hrun : ReadM.run Grammar.typeExpr.run r = (some t, r₁)) :
      r₁.mark.rest.length < r.mark.rest.length :=
    Firm.typeExpr.length_lt (Reads.typeExpr_none rfl (stops_nil _)) hrun
  have hmany := Parallel.many (fun _ _ => C.typeExpr) hless h (Nat.lt_succ_self _)
    (Nat.lt_succ_self _)
  refine .bound (hmany.next fun types _ _ h => ?_)
  cases types with
  | nil => exact .succeed _ h
  | cons t ts => exact .succeed _ h

theorem signature (h : Alike M r r') (hmore : r.mark.skipSpace.rest ≠ []) :
    Parallel M signature signature r r' := by
  refine .attempt h ((C.identifier h hmore).next fun name _ _ h => ?_)
  refine (C.sign (by decide) h).next fun _ _ _ h => (C.typeExprs h).next fun inputs _ _ h => ?_
  refine Parallel.next (Parallel.orElse ?_ fun _ _ _ h => .succeed _ h) fun outputs _ _ h =>
    .succeed _ h
  exact (C.sign (by decide) h).next fun _ _ _ h => C.typeExprs h

theorem line (block : Option Nat) (h : Alike M r r') :
    Parallel M (line block) (line block) r r' := by
  refine (C.indent h).next fun width _ _ h => ?_
  by_cases deeper : block.any (· < width) = true
  · simp only [deeper, ↓reduceIte]
    exact (Parallel.report _ h).next fun _ _ _ h => .succeed _ h
  simp only [deeper]
  by_cases shallower : block.any (width < ·) = true
  · simp only [shallower, ↓reduceIte]
    exact .succeed _ h
  simp only [shallower]
  exact (C.typeName h).next fun tag _ _ h => (C.typeName h).next fun payload _ _ h =>
    .succeed _ h

theorem members (block : Option Nat) {k k' : Nat} (halike : Alike M r r')
    (hk : r.mark.rest.length < k) (hk' : r'.mark.rest.length < k') :
    Parallel M (members block k) (members block k') r r' := by
  induction k generalizing block k' r r' with
  | zero => omega
  | succ k ih =>
    obtain ⟨k', rfl⟩ := Nat.exists_eq_succ_of_ne_zero (Nat.ne_zero_of_lt hk')
    obtain ⟨found, r₁, r₁', hrun, hrun', halike'⟩ := (C.line block halike).elim
    rw [Parallel, members_succ, members_succ, ReadM.run_next, ReadM.run_next,
      ReadM.run_optional, ReadM.run_optional, ReadM.run_attempt, ReadM.run_attempt, hrun, hrun']
    cases found with
    | none => exact ⟨rfl, halike'.filename, halike.mark, halike'.recorded⟩
    | some found =>
      cases found with
      | deeper => exact Parallel.fail halike'
      | shallower => exact Parallel.succeed [] halike'
      | member width member =>
        have hempty : Reads (Grammar.line block) [] none [] :=
          (Reads.indent_none_of_stops (stops_nil isBlank)).next_none
        have hr₁ := (Firm.line block).length_lt hempty hrun
        have hr₁' := (Firm.line block).length_lt hempty hrun'
        exact (ih _ halike' (by omega) (by omega)).next fun ms _ _ h => .succeed (member :: ms) h

theorem typeDefinition (h : Alike M r r') (hmore : r.mark.skipSpace.rest ≠ []) :
    Parallel M typeDefinition typeDefinition r r' := by
  have htype : Parallel M (keyword "type") (keyword "type") r r' :=
    (C.token h (fun _ => by decide) fun hend => absurd hend hmore).next fun _ _ _ h => .succeed () h
  refine .attempt h (htype.next fun _ _ _ h => ?_)
  refine ((C.typeName h).orElse fun _ _ _ h => .refuse _ h).next fun name _ _ h => ?_
  refine (C.typeName h).optional.next fun target _ _ h => ?_
  cases target with
  | some target => exact .succeed _ h
  | none =>
    refine (C.expect (by decide) _ h).next fun _ r r' h => ?_
    have hmembers := C.members none h (Nat.lt_succ_self _) (Nat.lt_succ_self _)
    refine .bound (hmembers.next fun ms _ _ h => ?_)
    cases ms with
    | nil => exact .fail h
    | cons first others => exact .succeed _ h

/-- **At corresponding marks there is the same declaration, or none.** -/
theorem declaration (h : Alike M r r') (hmore : r.mark.skipSpace.rest ≠ []) :
    Parallel M declaration declaration r r' := by
  refine ((C.typeDefinition h hmore).map _).orElse fun r₁ r₁' hrun h => ?_
  -- The definition that failed has left the mark where it was.
  have hmark : r₁.mark = r.mark := by
    rw [ReadM.run_map] at hrun
    obtain ⟨hnone, hr₁⟩ := Prod.mk.inj hrun
    exact mark_of_attempt_none (Prod.ext (Option.map_eq_none_iff.1 hnone) hr₁)
  exact (C.signature h (hmark ▸ hmore)).map _

end Correspondence

end Grammar

open Grammar

/-! ### Stretches of a text -/

namespace Stretch

variable {M : Mark → Mark → Prop} {filename : String} {m m' n n' : Mark}
  {parts parts' : List (Declaration × List Diagnostic)}

theorem skipSpace (h : Stretch filename m.skipSpace parts n) : Stretch filename m parts n := by
  cases h with
  | nil =>
    rw [m.skipSpace_skipSpace]
    exact .nil m
  | cons hrun hothers =>
    rw [m.skipSpace_skipSpace] at hrun
    exact .cons hrun hothers

/-- Where a stretch ends another one may begin. -/
theorem append (h : Stretch filename m parts m') (h' : Stretch filename m' parts' n) :
    Stretch filename m (parts ++ parts') n := by
  induction h with
  | nil m => exact h'.skipSpace
  | cons hrun _ ih => exact .cons hrun (ih h')

/-- **From corresponding marks on, the same declarations are read.** -/
theorem transfer (C : Correspondence M) (h : Stretch filename m parts n) (hm : M m m') :
    ∃ parts' n', Stretch filename m' parts' n' ∧ M n n' ∧
      parts'.map Prod.fst = parts.map Prod.fst ∧
      List.Forall₂ (Counterpart M) (parts.flatMap Prod.snd) (parts'.flatMap Prod.snd) := by
  induction h generalizing m' with
  | nil m => exact ⟨[], _, .nil m', C.skipSpace hm, rfl, .nil⟩
  | @cons m n₁ n d recorded parts hrun _ ih =>
    have hmore : m.skipSpace.skipSpace.rest ≠ [] := by
      rw [m.skipSpace_skipSpace]
      exact ne_nil_of_declaration hrun
    have halike : Alike M ⟨filename, m.skipSpace, []⟩ ⟨filename, m'.skipSpace, []⟩ :=
      ⟨rfl, C.skipSpace hm, .nil⟩
    obtain ⟨found, r₁, ⟨filename', n₁', recorded'⟩, hfound, hrun', hname, hn₁, hrecorded⟩ :=
      (C.declaration halike hmore).elim
    rw [hrun] at hfound
    cases hfound
    obtain rfl : filename' = filename := hname
    obtain ⟨parts', n', hothers, hn, hsame, hforall⟩ := ih hn₁
    refine ⟨(d, recorded') :: parts', n', .cons hrun' hothers, hn, by simp [hsame], ?_⟩
    rw [List.flatMap_cons, List.flatMap_cons]
    exact List.rel_append hrecorded hforall

end Stretch

end DeclLang
