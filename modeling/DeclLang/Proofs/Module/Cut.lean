import DeclLang.Proofs.Module.Printing
import DeclLang.Proofs.Module.Stretch

/-!
# Cutting a text off

A token ends where its last character is followed by one that cannot belong to it, or by nothing.
So a rule made of tokens returns the same if the text is cut off anywhere behind what it has passed
(`Firm`).  A list of types or members goes on as far as it can, so one has to know in addition that
it does not go on in what is left: the text may be cut off behind the blanks, and before anything
that could be a type (`Cut`).

A definition that was begun by the name of a function is given up before the text behind the colons
of the signature matters (`run_typeDefinition_of_name`).  So a text can be cut off behind any of its
declarations, and the declarations before are those of what is left (`Stretch.cut`).
-/

namespace DeclLang

open Text

namespace Grammar

open Scanner

variable {α β : Type} {r : Reading}

/-! ### Firm results -/

/-- On one text a rule ends in one way. -/
theorem Reads.unique {x : OptionT ReadM α} {cs rest rest' : List Char} {found found' : Option α}
    (h : Reads x cs found rest) (h' : Reads x cs found' rest') : found = found' ∧ rest = rest' := by
  obtain ⟨r, hrun, hr⟩ := h ⟨"", ⟨.start, cs⟩, []⟩ rfl
  obtain ⟨r', hrun', hr'⟩ := h' ⟨"", ⟨.start, cs⟩, []⟩ rfl
  rw [hrun] at hrun'
  cases hrun'
  exact ⟨rfl, hr.symm.trans hr'⟩

/-- What the rule returns, it returns on every text that has been cut off behind what was passed,
in one of the ways allowed. -/
def Firm (allowed : List Char → List Char → Prop) (x : OptionT ReadM α) (r : Reading) : Prop :=
  ∀ a r', ReadM.run x.run r = (some a, r') → ∃ cs, r.mark.rest = cs ++ r'.mark.rest ∧
    ∀ rest, allowed rest r'.mark.rest → Reads x (cs ++ rest) (some a) rest

/-- The text is cut off behind its blanks, and before anything that could be a type. -/
structure Cut (rest full : List Char) : Prop where
  isPrefix : rest <+: full
  blanks : full.takeWhile isBlank <+: rest
  stops : Stops opensType (unblank rest)

namespace Firm

variable {x : OptionT ReadM α} {allowed : List Char → List Char → Prop}

/-- A rule that returns nothing on nothing passes something. -/
theorem length_lt {a : α} {r' : Reading} (h : Firm (· <+: ·) x r) (hend : Reads x [] none [])
    (hrun : ReadM.run x.run r = (some a, r')) : r'.mark.rest.length < r.mark.rest.length := by
  obtain ⟨cs, hrest, hreads⟩ := h a r' hrun
  have hcs : cs ≠ [] := by
    rintro rfl
    cases (hend.unique (hreads [] List.nil_prefix)).1
  have hpos := List.length_pos_iff.2 hcs
  rw [hrest, List.length_append]
  omega

theorem succeed (a : α) : Firm allowed (pure a) r := by
  intro a' r' hrun
  cases hrun
  exact ⟨[], rfl, fun rest _ => .succeed a rest⟩

theorem bind {f : α → OptionT ReadM β} (hallowed : ∀ rest full, allowed rest full → rest <+: full)
    (h : Firm (· <+: ·) x r) (hf : ∀ a r', Firm allowed (f a) r') : Firm allowed (x >>= f) r := by
  intro b r'' hrun
  rw [ReadM.run_next] at hrun
  rcases hx : ReadM.run x.run r with ⟨_ | a, r'⟩ <;> rw [hx] at hrun
  · cases hrun
  · obtain ⟨cs, hrest, hreads⟩ := h a r' hx
    obtain ⟨ds, hrest', hreads'⟩ := hf a r' b r'' hrun
    refine ⟨cs ++ ds, by rw [hrest, hrest', List.append_assoc], fun rest hcut => ?_⟩
    rw [List.append_assoc]
    refine (hreads (ds ++ rest) ?_).next_some (hreads' rest hcut)
    rw [hrest']
    exact (List.prefix_append_right_inj ds).2 (hallowed rest _ hcut)

theorem next {f : α → OptionT ReadM β} (h : Firm (· <+: ·) x r)
    (hf : ∀ a r', Firm (· <+: ·) (f a) r') : Firm (· <+: ·) (x >>= f) r :=
  bind (fun _ _ => id) h hf

theorem next_cut {f : α → OptionT ReadM β} (h : Firm (· <+: ·) x r)
    (hf : ∀ a r', Firm Cut (f a) r') : Firm Cut (x >>= f) r :=
  bind (fun _ _ hcut => hcut.isPrefix) h hf

theorem attempt (h : Firm allowed x r) : Firm allowed (attempt x) r := by
  intro a r' hrun
  rw [ReadM.run_attempt] at hrun
  rcases hx : ReadM.run x.run r with ⟨_ | a', r''⟩ <;> rw [hx] at hrun <;> cases hrun
  obtain ⟨cs, hrest, hreads⟩ := h a r' hx
  exact ⟨cs, hrest, fun rest hcut => (hreads rest hcut).attempt_some⟩

theorem orElse_refuse (kind : Diagnostic.Kind) (h : Firm allowed x r) :
    Firm allowed (x <|> refuse kind) r := by
  intro a r' hrun
  rw [ReadM.run_orElse] at hrun
  rcases hx : ReadM.run x.run r with ⟨_ | a', r''⟩ <;> rw [hx] at hrun <;> cases hrun
  obtain ⟨cs, hrest, hreads⟩ := h a r' hx
  exact ⟨cs, hrest, fun rest hcut => (hreads rest hcut).orElse_some⟩

end Firm

/-! ### Tokens -/

/-- A token is found again where the text is cut off behind it. -/
theorem TokenKind.find?_of_isPrefix {kind : TokenKind} {expected token : String} {m m' n : Mark}
    {rest : List Char} (h : kind.find? expected m = some (token, m'))
    (hn : n.rest = token.toList ++ rest) (hrest : rest <+: m'.rest) :
    ∃ n', kind.find? expected n = some (token, n') ∧ n'.rest = rest := by
  have word {first : Char → Bool} (h : m.word? first isNameChar = some (token, m')) :
      ∃ n', n.word? first isNameChar = some (token, n') ∧ n'.rest = rest := by
    obtain ⟨hword, hstop⟩ := Mark.isWord_of_word? h
    exact Reads.exists_word? hword hn (hstop.of_isPrefix hrest)
  cases kind with
  | keyword =>
    obtain ⟨m'', hfound, heq⟩ := Option.map_eq_some_iff.1 h
    cases heq
    exact ⟨_, by rw [find?, Mark.literal?_eq_some_iff.2 (Mark.passes_of_rest_eq hn)]; rfl, rfl⟩
  | identifier => exact word h
  | typeName => exact word h

/-- Behind the same blanks comes less of the same text. -/
theorem unblank_append_of_isPrefix {m : Mark} {cs : List Char} (hcs : cs <+: m.skipSpace.rest) :
    unblank (m.rest.takeWhile isBlank ++ cs) = cs :=
  dropWhile_append_of_stops (fun _ hc => List.mem_takeWhile_imp hc)
    (m.stops_skipSpace.of_isPrefix hcs)

namespace Firm

variable {x : OptionT ReadM α} {allowed : List Char → List Char → Prop}

theorem token (kind : TokenKind) (expected : String) :
    Firm (· <+: ·) (ReadM.token kind expected) r := by
  intro _ r' hrun
  rw [ReadM.run_token] at hrun
  cases hfound : kind.find? expected r.mark.skipSpace with
  | none => rw [hfound] at hrun; cases hrun
  | some found =>
    obtain ⟨word, m'⟩ := found
    rw [hfound, Prod.mk.injEq, Option.some.injEq] at hrun
    obtain ⟨rfl, rfl⟩ := hrun
    have htoken := TokenKind.passes_of_find? hfound
    refine ⟨_, (r.mark.skipSpace_passes.trans htoken).1, fun rest hrest q hq => ?_⟩
    have hspace : q.mark.skipSpace.rest = word.toList ++ rest := by
      rw [List.append_assoc] at hq
      change unblank q.mark.rest = _
      rw [hq]
      refine unblank_append_of_isPrefix ?_
      rw [htoken.1]
      exact (List.prefix_append_right_inj _).2 hrest
    obtain ⟨n, hfound', hn⟩ := TokenKind.find?_of_isPrefix hfound hspace hrest
    rw [ReadM.run_token, hfound']
    exact ⟨_, rfl, hn⟩

theorem keyword (text : String) : Firm (· <+: ·) (keyword text) r :=
  (token .keyword text).next fun _ _ => succeed ()

theorem typeName : Firm (· <+: ·) typeName r := token .typeName ""

theorem identifier : Firm (· <+: ·) identifier r := token .identifier ""

theorem expect (text : String) (kind : Diagnostic.Kind) : Firm (· <+: ·) (expect text kind) r :=
  (keyword text).orElse_refuse kind

theorem indent : Firm (· <+: ·) indent r := by
  intro width r' hrun
  rw [ReadM.run_indent] at hrun
  cases hindent : r.mark.indent? with
  | none => rw [hindent] at hrun; cases hrun
  | some found =>
    rw [hindent] at hrun
    cases hrun
    obtain ⟨tail, pad, htail, hpad, hlength, hwidth, hstop, hpass⟩ :=
      Mark.indent?_eq_some_iff.1 hindent
    refine ⟨_, hpass.1, fun rest hrest q hq => ?_⟩
    have hfound := Mark.indent?_eq_some_iff.2 ⟨tail, pad, htail, hpad, hlength, hwidth,
      hstop.of_isPrefix hrest, Mark.passes_of_rest_eq hq⟩
    rw [ReadM.run_indent, hfound]
    exact ⟨_, rfl, rfl⟩

theorem report (kind : Diagnostic.Kind) : Firm (· <+: ·) (report kind) r := by
  intro a r' hrun
  cases hrun
  exact ⟨[], rfl, fun rest _ q hq => ⟨_, rfl, hq⟩⟩

/-- A type name that is missing is missing in less of the text. -/
theorem optional_typeName : Firm (· <+: ·) (optional Scanner.typeName) r := by
  intro found r' hrun
  rw [ReadM.run_optional, ReadM.run_typeName] at hrun
  cases hname : r.mark.skipSpace.word? isTypeStart isNameChar with
  | some name =>
    have hrun' : ReadM.run Scanner.typeName.run r = (some name.1, { r with mark := name.2 }) := by
      rw [ReadM.run_typeName, hname]
    rw [hname] at hrun
    cases hrun
    obtain ⟨cs, hrest, hreads⟩ := typeName _ _ hrun'
    exact ⟨cs, hrest, fun rest hcut => (hreads rest hcut).optional_some⟩
  | none =>
    rw [hname] at hrun
    cases hrun
    refine ⟨_, r.mark.skipSpace_passes.1, fun rest hcut => ?_⟩
    exact (Reads.typeName_none (unblank_append_of_isPrefix hcut)
      ((Mark.word?_eq_none_iff.1 hname).of_isPrefix hcut)).optional_none

theorem line (block : Option Nat) : Firm (· <+: ·) (line block) r := by
  refine indent.next fun width r' => ?_
  by_cases deeper : block.any (· < width) = true
  · simp only [deeper, ↓reduceIte]
    exact (report _).next fun _ _ => succeed _
  simp only [deeper]
  by_cases shallower : block.any (width < ·) = true
  · simp only [shallower, ↓reduceIte]
    exact succeed _
  simp only [shallower]
  exact typeName.next fun tag _ => typeName.next fun payload _ => succeed _

theorem arrayType : Firm (· <+: ·) arrayType r := by
  refine attempt ((keyword "[").next fun _ _ => typeName.next fun element _ => ?_)
  exact (expect "]" _).next fun _ _ => succeed _

theorem mapType : Firm (· <+: ·) mapType r := by
  refine attempt ((keyword "\x7b").next fun _ _ => typeName.next fun key _ => ?_)
  refine (expect ":" _).next fun _ _ => (typeName.orElse_refuse _).next fun value _ => ?_
  exact (expect "\x7d" _).next fun _ _ => succeed _

/-- Where no name begins, a form that returns decides the type expression, if the forms before it
fail on all of the text that this one may see. -/
theorem of_form {z : OptionT ReadM TypeExpr} {t : TypeExpr} {r' : Reading}
    (hname : r.mark.skipSpace.word? isTypeStart isNameChar = none)
    (hz : Firm (· <+: ·) z { r with mark := r.mark.skipSpace })
    (hform : ∀ cs rest, cs <+: r.mark.skipSpace.rest → Reads z cs (some t) rest →
      Reads (Grammar.arrayType <|> Grammar.mapType <|> (do Scanner.keyword "()"; return .unit))
        cs (some t) rest)
    (hrun : ReadM.run z.run { r with mark := r.mark.skipSpace } = (some t, r')) :
    ∃ cs, r.mark.rest = cs ++ r'.mark.rest ∧
      ∀ rest, rest <+: r'.mark.rest → Reads Grammar.typeExpr (cs ++ rest) (some t) rest := by
  obtain ⟨cs, hrest, hreads⟩ := hz t r' hrun
  change r.mark.skipSpace.rest = _ at hrest
  refine ⟨r.mark.rest.takeWhile isBlank ++ cs, ?_, fun rest hcut => ?_⟩
  · rw [List.append_assoc, ← hrest]
    exact r.mark.skipSpace_passes.1
  have hcs : cs ++ rest <+: r.mark.skipSpace.rest := by
    rw [hrest]
    exact (List.prefix_append_right_inj cs).2 hcut
  have hnone := Reads.typeName_none (unblank_append_of_isPrefix hcs)
    ((Mark.word?_eq_none_iff.1 hname).of_isPrefix hcs)
  rw [List.append_assoc]
  exact (hnone.map_none _).orElse_none (hform _ rest hcs (hreads rest hcut))

theorem typeExpr : Firm (· <+: ·) typeExpr r := by
  intro t r' hrun
  rw [run_typeExpr] at hrun
  cases hname : r.mark.skipSpace.word? isTypeStart isNameChar with
  | some found =>
    have hrun' : ReadM.run Scanner.typeName.run r =
        (some found.1, { r with mark := found.2 }) := by
      rw [ReadM.run_typeName, hname]
    rw [hname] at hrun
    cases hrun
    obtain ⟨cs, hrest, hreads⟩ := typeName _ _ hrun'
    exact ⟨cs, hrest, fun rest hcut => ((hreads rest hcut).map_some _).orElse_some⟩
  | none =>
    rw [hname] at hrun
    have absent {text : String} {f : Unit → OptionT ReadM TypeExpr} {cs : List Char}
        (h : ¬ text.toList <+: r.mark.skipSpace.rest) (hcs : cs <+: r.mark.skipSpace.rest) :
        Reads (Scanner.attempt (Scanner.keyword text >>= f)) cs none cs := by
      have hself : unblank cs = cs := unblank_eq_self (r.mark.stops_skipSpace.of_isPrefix hcs)
      exact (Reads.keyword_none hself fun hbegun => h (hbegun.trans hcs)).next_none.attempt_none
    simp only at hrun
    split at hrun
    case isTrue => exact of_form hname arrayType (fun _ _ _ hreads => hreads.orElse_some) hrun
    case isFalse hbracket =>
      split at hrun
      case isTrue =>
        refine of_form hname mapType (fun _ _ hcs hreads => ?_) hrun
        exact (@absent "[" _ _ hbracket hcs).orElse_none hreads.orElse_some
      case isFalse hbrace =>
        refine of_form hname ((keyword "()").next fun _ _ => succeed _)
          (fun _ _ hcs hreads => ?_) hrun
        exact (@absent "[" _ _ hbracket hcs).orElse_none
          ((@absent "\x7b" _ _ hbrace hcs).orElse_none hreads)

end Firm

/-! ### Lists of types -/

/-- A list of types ends at the end of the text or at something that is no blank, and is read
again before anything that could not be one of its types. -/
theorem many_typeExpr_of_cut {k : Nat} {types : List TypeExpr} {r' : Reading}
    (hk : r.mark.rest.length < k) (hrun : ReadM.run (many typeExpr k).run r = (some types, r')) :
    Stops isBlank r'.mark.rest ∧ ∃ cs, r.mark.rest = cs ++ r'.mark.rest ∧
      ∀ rest k', Cut rest r'.mark.rest → (cs ++ rest).length < k' →
        Reads (many typeExpr k') (cs ++ rest) (some types) rest := by
  induction k generalizing r types with
  | zero => omega
  | succ k ih =>
    rw [many_succ, ReadM.run_next, ReadM.run_optional] at hrun
    rcases ht : ReadM.run typeExpr.run r with ⟨_ | t, r₁⟩ <;> rw [ht] at hrun
    · cases hrun
      have hmark := mark_of_typeExpr_none ht
      refine ⟨hmark ▸ r.mark.stops_skipSpace, _, hmark ▸ r.mark.skipSpace_passes.1,
        fun rest k' hcut hk' => ?_⟩
      obtain ⟨k', rfl⟩ := Nat.exists_eq_succ_of_ne_zero (Nat.ne_zero_of_lt hk')
      rw [hmark] at hcut
      have hself := unblank_eq_self (r.mark.stops_skipSpace.of_isPrefix hcut.isPrefix)
      have hnone := Reads.typeExpr_none (unblank_append_of_isPrefix hcut.isPrefix)
        (hself ▸ hcut.stops)
      exact hnone.optional_none.next_some (.succeed [] rest)
    · simp only at hrun
      rw [ReadM.run_next] at hrun
      rcases hmany : ReadM.run (many typeExpr k).run r₁ with ⟨_ | ts, r₂⟩ <;> rw [hmany] at hrun <;>
        cases hrun
      obtain ⟨cs, hrest, hreads⟩ := Firm.typeExpr t r₁ ht
      have hless := Firm.typeExpr.length_lt (Reads.typeExpr_none rfl (stops_nil _)) ht
      have hlength := congrArg List.length hrest
      rw [List.length_append] at hlength
      obtain ⟨hstops, ds, hrest', hreads'⟩ := ih (by omega) hmany
      refine ⟨hstops, cs ++ ds, by rw [hrest, hrest', List.append_assoc],
        fun rest k' hcut hk' => ?_⟩
      obtain ⟨k', rfl⟩ := Nat.exists_eq_succ_of_ne_zero (Nat.ne_zero_of_lt hk')
      rw [List.append_assoc] at hk' ⊢
      rw [List.length_append] at hk'
      have hmore : ds ++ rest <+: r₁.mark.rest := by
        rw [hrest']
        exact (List.prefix_append_right_inj ds).2 hcut.isPrefix
      have hfirst := hreads (ds ++ rest) hmore
      have hothers := hreads' rest k' hcut (by omega)
      exact hfirst.optional_some.next_some (hothers.next_some (.succeed (t :: ts) rest))

theorem typeExprs_of_cut {types : Option (List TypeExpr)} {r' : Reading}
    (hrun : ReadM.run typeExprs.run r = (some types, r')) :
    Stops isBlank r'.mark.rest ∧ ∃ cs, r.mark.rest = cs ++ r'.mark.rest ∧
      ∀ rest, Cut rest r'.mark.rest → Reads typeExprs (cs ++ rest) (some types) rest := by
  change ReadM.run (many typeExpr (r.mark.rest.length + 1) >>= fun types => _).run r = _ at hrun
  rw [ReadM.run_next] at hrun
  rcases hmany : ReadM.run (many typeExpr (r.mark.rest.length + 1)).run r with ⟨_ | ts, r₁⟩ <;>
    rw [hmany] at hrun
  · cases hrun
  · obtain ⟨hstops, cs, hrest, hreads⟩ := many_typeExpr_of_cut (Nat.lt_succ_self _) hmany
    refine ⟨?_, cs, ?_, fun rest hcut => (Reads.bound_some _).next_some ?_⟩ <;>
      cases ts <;> cases hrun
    · exact hstops
    · exact hstops
    · exact hrest
    · exact hrest
    · exact (hreads rest _ hcut (Nat.lt_succ_self _)).next_some (.succeed none rest)
    · exact (hreads rest _ hcut (Nat.lt_succ_self _)).next_some (.succeed (some (_ :: _)) rest)

/-! ### Signatures -/

/-- Behind a list of types there is the sign and another list, or neither.  The sign can be no type,
so the first list ends before it. -/
theorem outputs_of_cut {outputs : Option (List TypeExpr)} {r' : Reading}
    (hspace : Stops isBlank r.mark.rest)
    (hrun : ReadM.run ((do keyword "="; typeExprs) <|> pure none : OptionT ReadM _).run r =
      (some outputs, r')) :
    ∃ cs, r.mark.rest = cs ++ r'.mark.rest ∧ ∀ rest, Cut rest r'.mark.rest →
      Cut (cs ++ rest) r.mark.rest ∧
        Reads ((do keyword "="; typeExprs) <|> pure none) (cs ++ rest) (some outputs) rest := by
  rw [ReadM.run_orElse, ReadM.run_next, ReadM.run_keyword, Mark.skipSpace_eq_self hspace] at hrun
  cases hsign : r.mark.literal? "=".toList with
  | none =>
    rw [hsign] at hrun
    cases hrun
    refine ⟨[], rfl, fun rest hcut => ⟨hcut, ?_⟩⟩
    have hself := unblank_eq_self (hspace.of_isPrefix hcut.isPrefix)
    have habsent : ¬ "=".toList <+: rest := fun hbegun =>
      Mark.literal?_eq_none_iff.1 hsign (hbegun.trans hcut.isPrefix)
    exact (Reads.keyword_none hself habsent).next_none.orElse_none (.succeed none rest)
  | some m =>
    have hpass := Mark.literal?_eq_some_iff.1 hsign
    rw [hsign] at hrun
    simp only at hrun
    rcases htypes : ReadM.run typeExprs.run { r with mark := m } with ⟨_ | types, r₁⟩ <;>
      rw [htypes] at hrun
    · have hsome := Succeeds.typeExprs { r with mark := m }
      rw [htypes] at hsome
      cases hsome
    · cases hrun
      obtain ⟨-, cs, hrest, hreads⟩ := typeExprs_of_cut htypes
      refine ⟨"=".toList ++ cs, by rw [hpass.1, hrest, List.append_assoc], fun rest hcut => ?_⟩
      rw [List.append_assoc]
      refine ⟨⟨?_, ?_, ?_⟩, ((Reads.keyword_some rfl).next_some (hreads rest hcut)).orElse_some⟩
      · rw [hpass.1, hrest]
        exact (List.prefix_append_right_inj _).2
          ((List.prefix_append_right_inj _).2 hcut.isPrefix)
      · rw [hpass.1]
        exact List.nil_prefix
      · exact stops_cons.2 (by decide)

namespace Firm

theorem signature : Firm Cut signature r := by
  refine attempt (identifier.next_cut fun name r₁ => (keyword "::").next_cut fun _ r₂ => ?_)
  intro s r' hrun
  rw [ReadM.run_next] at hrun
  rcases hinputs : ReadM.run typeExprs.run r₂ with ⟨_ | inputs, r₃⟩ <;> rw [hinputs] at hrun
  · cases hrun
  simp only at hrun
  rw [ReadM.run_next] at hrun
  rcases houtputs : ReadM.run ((do Scanner.keyword "="; typeExprs) <|> pure none :
    OptionT ReadM _).run r₃ with ⟨_ | outputs, r₄⟩ <;> rw [houtputs] at hrun
  · cases hrun
  cases hrun
  obtain ⟨hstops, cs, hrest, hreads⟩ := typeExprs_of_cut hinputs
  obtain ⟨ds, hrest', hreads'⟩ := outputs_of_cut hstops houtputs
  refine ⟨cs ++ ds, by rw [hrest, hrest', List.append_assoc], fun rest hcut => ?_⟩
  rw [List.append_assoc]
  obtain ⟨hmore, houtputs'⟩ := hreads' rest hcut
  exact (hreads _ hmore).next_some (houtputs'.next_some (.succeed _ rest))

end Firm

/-! ### Blocks of members -/

/-- An indentation is found wherever a text has the end of a line and a pad behind it. -/
theorem indent?_ne_none {m : Mark} {tail pad more : List Char}
    (htail : ∀ c ∈ tail, isLineBlank c = true) (hpad : ∀ c ∈ pad, isPad c = true) (hne : pad ≠ [])
    (h : m.rest = tail ++ '\n' :: pad ++ more) : m.indent? ≠ none := by
  intro hnone
  have hrest : m.rest =
      (tail ++ '\n' :: (pad ++ more.takeWhile isPad)) ++ more.dropWhile isPad := by
    rw [h]
    simp
  have hpads : ∀ c ∈ pad ++ more.takeWhile isPad, isPad c = true := fun c hc =>
    (List.mem_append.1 hc).elim (hpad c) List.mem_takeWhile_imp
  have hfound := Mark.indent?_eq_some_iff.2 ⟨tail, _, htail, hpads, rfl, by simp [hne],
    stops_dropWhile isPad more, Mark.passes_of_rest_eq hrest⟩
  rw [hnone] at hfound
  cases hfound

/-- A line that is none is none where the text is cut off. -/
theorem line_none_of_cut {block : Option Nat} {r' : Reading} {rest : List Char}
    (hrun : ReadM.run (line block).run r = (none, r')) (hcut : Cut rest r.mark.rest) :
    ∃ rest', Reads (line block) rest none rest' := by
  rw [line, ReadM.run_next, ReadM.run_indent] at hrun
  cases hindent : r.mark.indent? with
  | none =>
    refine ⟨rest, (Reads.indent_none fun tail pad more htail hpad hne hrest => ?_).next_none⟩
    obtain ⟨cs, hcs⟩ := hcut.isPrefix
    refine @indent?_ne_none _ tail pad (more ++ cs) htail hpad hne ?_ hindent
    rw [← hcs, hrest, List.append_assoc]
  | some found =>
    obtain ⟨width, m⟩ := found
    obtain ⟨tail, pad, htail, hpad, -, -, -, hpass⟩ := Mark.indent?_eq_some_iff.1 hindent
    have hblanks : ∀ c ∈ tail ++ '\n' :: pad, isBlank c = true := by
      intro c hc
      simp only [List.mem_append, List.mem_cons] at hc
      rcases hc with hc | rfl | hc
      · exact isBlank_of_isLineBlank (htail c hc)
      · decide
      · exact isBlank_of_isPad (hpad c hc)
    -- The indentation is among the blanks, so it is still there and as wide.
    have hkept := hcut.blanks
    rw [hpass.1, List.takeWhile_append_of_pos hblanks] at hkept
    obtain ⟨more, rfl⟩ := (List.prefix_append _ _).trans hkept
    have hmore : more <+: m.rest := by
      have := hcut.isPrefix
      rw [hpass.1] at this
      exact (List.prefix_append_right_inj _).1 this
    have hindent' : ReadM.run indent.run r = (some width, { r with mark := m }) := by
      rw [ReadM.run_indent, hindent]
    obtain ⟨cs, hrest, hreads⟩ := Firm.indent _ _ hindent'
    obtain rfl : cs = tail ++ '\n' :: pad := List.append_cancel_right (hrest.symm.trans hpass.1)
    have hstops := hcut.stops
    rw [unblank, List.dropWhile_append_of_pos hblanks] at hstops
    refine ⟨unblank more, (hreads more hmore).next_some ?_⟩
    rw [hindent] at hrun
    simp only at hrun
    by_cases deeper : block.any (· < width) = true
    · simp only [deeper, ↓reduceIte] at hrun
      cases hrun
    simp only [deeper] at hrun ⊢
    by_cases shallower : block.any (width < ·) = true
    · simp only [shallower, ↓reduceIte] at hrun
      cases hrun
    simp only [shallower]
    exact (Reads.typeName_none rfl (hstops.mono (by simp_all [opensType]))).next_none

/-- A block of members is read again where the text is cut off. -/
theorem members_of_cut {block : Option Nat} {k : Nat} {ms : List Member} {r' : Reading}
    (hk : r.mark.rest.length < k) (hrun : ReadM.run (members block k).run r = (some ms, r')) :
    ∃ cs, r.mark.rest = cs ++ r'.mark.rest ∧
      ∀ rest k', Cut rest r'.mark.rest → (cs ++ rest).length < k' →
        Reads (members block k') (cs ++ rest) (some ms) rest := by
  induction k generalizing r block ms with
  | zero => omega
  | succ k ih =>
    rw [members_succ, ReadM.run_next, ReadM.run_optional, ReadM.run_attempt] at hrun
    rcases hline : ReadM.run (line block).run r with ⟨_ | found, r₁⟩ <;> rw [hline] at hrun
    · cases hrun
      refine ⟨[], rfl, fun rest k' hcut hk' => ?_⟩
      obtain ⟨k', rfl⟩ := Nat.exists_eq_succ_of_ne_zero (Nat.ne_zero_of_lt hk')
      obtain ⟨rest', hnone⟩ := line_none_of_cut hline hcut
      exact hnone.attempt_none.optional_none.next_some (.succeed [] rest)
    obtain ⟨cs, hrest, hreads⟩ := Firm.line block _ _ hline
    cases found with
    | deeper => cases hrun
    | shallower =>
      cases hrun
      refine ⟨cs, hrest, fun rest k' hcut hk' => ?_⟩
      obtain ⟨k', rfl⟩ := Nat.exists_eq_succ_of_ne_zero (Nat.ne_zero_of_lt hk')
      exact (hreads rest hcut.isPrefix).attempt_some.optional_some.next_some (.succeed [] rest)
    | member width member =>
      simp only at hrun
      rw [ReadM.run_next] at hrun
      rcases hmembers : ReadM.run (members (some width) k).run r₁ with ⟨_ | others, r₂⟩ <;>
        rw [hmembers] at hrun <;> cases hrun
      have hless := (Firm.line block).length_lt
        (Reads.indent_none_of_stops (stops_nil _)).next_none hline
      have hlength := congrArg List.length hrest
      rw [List.length_append] at hlength
      obtain ⟨ds, hrest', hreads'⟩ := ih (by omega) hmembers
      refine ⟨cs ++ ds, by rw [hrest, hrest', List.append_assoc], fun rest k' hcut hk' => ?_⟩
      obtain ⟨k', rfl⟩ := Nat.exists_eq_succ_of_ne_zero (Nat.ne_zero_of_lt hk')
      rw [List.append_assoc] at hk' ⊢
      rw [List.length_append] at hk'
      have hmore : ds ++ rest <+: r₁.mark.rest := by
        rw [hrest']
        exact (List.prefix_append_right_inj ds).2 hcut.isPrefix
      have hfirst := hreads (ds ++ rest) hmore
      have hothers := hreads' rest k' hcut (by omega)
      exact hfirst.attempt_some.optional_some.next_some
        (hothers.next_some (.succeed (member :: others) rest))

theorem Firm.typeDefinition : Firm Cut typeDefinition r := by
  refine attempt ((keyword "type").next_cut fun _ _ => ?_)
  refine (typeName.orElse_refuse _).next_cut fun name _ => ?_
  refine optional_typeName.next_cut fun target _ => ?_
  cases target with
  | some target => exact succeed _
  | none =>
    refine (expect ":" _).next_cut fun _ r => ?_
    intro d r' hrun
    change ReadM.run (members none (r.mark.rest.length + 1) >>= fun ms => _).run r = _ at hrun
    rw [ReadM.run_next] at hrun
    rcases hmembers : ReadM.run (members none (r.mark.rest.length + 1)).run r with ⟨_ | ms, r₁⟩ <;>
      rw [hmembers] at hrun
    · cases hrun
    obtain ⟨cs, hrest, hreads⟩ := members_of_cut (Nat.lt_succ_self _) hmembers
    cases ms with
    | nil => cases hrun
    | cons first others =>
      cases hrun
      refine ⟨cs, hrest, fun rest hcut => (Reads.bound_some _).next_some ?_⟩
      exact (hreads rest _ hcut (Nat.lt_succ_self _)).next_some (.succeed _ rest)

/-! ### Declarations -/

/-- A declaration is read again where the text is cut off behind it. -/
theorem Firm.declaration (hspace : Stops isBlank r.mark.rest) : Firm Cut declaration r := by
  intro d r' hrun
  cases d with
  | type d =>
    obtain ⟨cs, hrest, hreads⟩ := typeDefinition _ _ (run_declaration_type hrun)
    exact ⟨cs, hrest, fun rest hcut => ((hreads rest hcut).map_some _).orElse_some⟩
  | function s =>
    obtain ⟨gap, more, r₁, hname, hgap, hpass, hr₁, hsignature, -⟩ :=
      run_declaration_function hspace hrun
    obtain ⟨cs, hrest, hreads⟩ := signature s r' hsignature
    rw [hr₁] at hrest
    obtain rfl : cs = s.name.toList ++ (gap ++ ':' :: ':' :: more) :=
      List.append_cancel_right (hrest.symm.trans hpass.1)
    refine ⟨_, hrest, fun rest hcut => ?_⟩
    -- The definition begun by the name is given up here too.
    have hnone := @Reads.typeDefinition_of_name s.name gap (more ++ rest) hname hgap
    have hsome := hreads rest hcut
    simp only [List.append_assoc, List.cons_append] at hsome ⊢
    exact (hnone.map_none _).orElse_none (hsome.map_some _)

end Grammar

open Grammar

/-- **A text may be cut off where its declarations end.**  What is before that place is nothing but
these declarations, in a file of any name. -/
theorem Stretch.cut {filename : String} {m m' : Mark} {parts : List (Declaration × List Diagnostic)}
    (h : Stretch filename m parts m') :
    ∃ before, m.rest = before ++ m'.rest ∧ Cut before m.rest ∧
      ∀ (filename' : String) (n : Mark), n.rest = before →
        ∃ parts', Declares filename' n parts' ∧ parts'.map Prod.fst = parts.map Prod.fst := by
  induction h with
  | nil m =>
    have hend : unblank (m.rest.takeWhile isBlank) = [] := by
      simpa using unblank_append_of_isPrefix (m := m) List.nil_prefix
    refine ⟨_, m.skipSpace_passes.1, ⟨List.takeWhile_prefix _, List.prefix_rfl, ?_⟩,
      fun filename' n hn => ⟨[], .nil ?_, rfl⟩⟩
    · rw [hend]
      exact stops_nil _
    · change unblank n.rest = []
      rw [hn, hend]
  | @cons m m₁ m' d recorded parts hrun _ ih =>
    obtain ⟨before, hbefore, hcut, hdeclares⟩ := ih
    obtain ⟨cs, hrest, hreads⟩ := Firm.declaration m.stops_skipSpace d _ hrun
    change m.skipSpace.rest = cs ++ m₁.rest at hrest
    have hspace := m.skipSpace_passes.1
    have hless : cs ++ before <+: m.skipSpace.rest := by
      rw [hrest]
      exact (List.prefix_append_right_inj cs).2 hcut.isPrefix
    have hself := unblank_append_of_isPrefix hless
    refine ⟨m.rest.takeWhile isBlank ++ (cs ++ before), ?_, ⟨?_, List.prefix_append _ _, ?_⟩,
      fun filename' n hn => ?_⟩
    · rw [List.append_assoc, List.append_assoc, ← hbefore, ← hrest]
      exact hspace
    · have hwhole : m.rest.takeWhile isBlank ++ m.skipSpace.rest <+: m.rest :=
        ⟨[], (List.append_nil _).trans hspace.symm⟩
      exact ((List.prefix_append_right_inj _).2 hless).trans hwhole
    · rw [hself]
      have hfollows : Follows (cs ++ before) :=
        (stops_of_declaration m.stops_skipSpace hrun).of_isPrefix hless
      exact hfollows.stops isVariableStart_eq_false_of_opensType
    · have hn' : n.skipSpace.rest = cs ++ before := by
        change unblank n.rest = _
        rw [hn, hself]
      obtain ⟨⟨filename'', n₁, recorded'⟩, hrun', rfl⟩ :=
        hreads before hcut ⟨filename', n.skipSpace, []⟩ hn'
      obtain rfl : filename'' = filename' := filename_of_declaration hrun'
      obtain ⟨parts', hparts, hsame⟩ := hdeclares _ n₁ rfl
      exact ⟨(d, recorded') :: parts', .cons (ne_nil_of_declaration hrun') hrun' hparts, by
        simp [hsame]⟩

end DeclLang
