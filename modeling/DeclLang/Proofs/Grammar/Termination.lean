import DeclLang.Proofs.Grammar.Transaction
import DeclLang.Proofs.Text.Boundary

/-!
# Loops end by themselves

The lists and nestings of the grammar are bounded by the number of characters left.  Nothing is
lost by that: a loop goes on only where something was matched, a match moves the cursor forward,
and on one text the cursor that is further has less before it (`Mark.Fits.length_lt`).  So a loop is
over before its bound is spent, and what it would do then, whether it stops, fails or raises an
alarm, does not matter (`Same.manyOr`, `Same.membersOr`, `Same.deconstructorWithinOr`).

That a match moves forward is not a fact about the text alone, since an entry of the memo table
overwrites the mark of the cursor.  The invariant is that every entry leads forward from the
position it is recorded for (`MemoTable.Onward`), and every way to build a rule keeps it
(`onward`).  It speaks of offsets and not of lines and columns, so it does not matter how the cursor
came to where it is.
-/

namespace DeclLang

/-! ### Positions of one text -/

namespace Text.Mark.Fits

variable {text : String} {m m' : Mark}

theorem offset_le (h : m.Fits text) : m.place.offset ≤ text.utf8ByteSize := by
  obtain ⟨before, htext, hoffset⟩ := fits_iff.1 h
  have hsize := congrArg (fun cs => (String.ofList cs).utf8ByteSize) htext
  simp only [String.ofList_toList, String.ofList_append, String.utf8ByteSize_append] at hsize
  omega

/-- From the longer rest of a text one gets to the shorter one. -/
theorem takes_of_length_le (h : m.Fits text) (h' : m'.Fits text)
    (hle : m'.rest.length ≤ m.rest.length) : ∃ cs, m.Takes cs m' := by
  obtain ⟨before, htext, hoffset⟩ := fits_iff.1 h
  obtain ⟨before', htext', hoffset'⟩ := fits_iff.1 h'
  -- Of two beginnings of one text the shorter one begins the longer one.
  have hlength := congrArg List.length (htext.symm.trans htext')
  simp only [List.length_append] at hlength
  obtain ⟨cs, rfl⟩ : before <+: before' :=
    List.prefix_of_prefix_length_le ⟨_, htext.symm⟩ ⟨_, htext'.symm⟩ (by omega)
  refine ⟨cs, ?_, ?_⟩
  · rw [htext, List.append_assoc] at htext'
    exact List.append_cancel_left htext'
  · rw [hoffset', hoffset, String.ofList_append, String.utf8ByteSize_append]

theorem length_lt (h : m.Fits text) (h' : m'.Fits text)
    (hlt : m.place.offset < m'.place.offset) : m'.rest.length < m.rest.length := by
  by_contra hle
  obtain ⟨cs, -, hoffset⟩ := h'.takes_of_length_le h (not_lt.1 hle)
  omega

theorem length_le (h : m.Fits text) (h' : m'.Fits text)
    (hle : m.place.offset ≤ m'.place.offset) : m'.rest.length ≤ m.rest.length := by
  by_contra hlt
  obtain ⟨cs, hrest, hoffset⟩ := h'.takes_of_length_le h (by omega)
  have hcs := Place.length_le_utf8ByteSize cs
  have hlength := congrArg List.length hrest
  rw [List.length_append] at hlength
  omega

end Text.Mark.Fits

namespace Grammar

open Text

/-! ### Tables that lead forward -/

/-- The token of an entry is found at or behind a position of the text, and behind it unless it is
the empty keyword. -/
structure Memo.Onward (text : String) (position : Nat) (kind : TokenKind) (memo : Memo) : Prop where
  fits : memo.mark.Fits text
  le : position ≤ memo.mark.place.offset
  lt : (kind = .keyword → memo.token ≠ "") → position < memo.mark.place.offset

theorem Memo.Onward.of_find? {text expected token : String} {kind : TokenKind} {m m' : Mark}
    (hm : m.Fits text) (h : kind.find? expected m.skipSpace = some (token, m')) :
    Memo.Onward text m.place.offset kind ⟨m', token⟩ := by
  have hpass := m.skipSpace_passes.trans (TokenKind.passes_of_find? h)
  refine ⟨hm.takes hpass.takes, hpass.offset_le, fun hkeyword => hpass.offset_lt ?_⟩
  have hword {first : Char → Bool} (h : m.skipSpace.word? first isNameChar = some (token, m')) :
      token ≠ "" := by
    obtain ⟨c, cs, rfl, -⟩ := Mark.word?_eq_some_iff.1 h
    simp
  have htoken : token ≠ "" := by
    cases kind with
    | keyword => exact hkeyword rfl
    | identifier => exact hword h
    | typeName => exact hword h
  simpa using fun _ => htoken

/-- Every entry of the table leads forward on the source the table is bound to. -/
def MemoTable.Onward (t : MemoTable) : Prop :=
  ∀ source, t.source = some source → ∀ position kind memo,
    t.entries[Memo.key position kind]? = some memo → memo.Onward source.text position kind

namespace MemoTable.Onward

theorem empty : MemoTable.empty.Onward := nofun

theorem record {t : MemoTable} (h : t.Onward) {c : Cursor} {position : Nat} {kind : TokenKind}
    {token : String} (hmemo : Memo.Onward c.source.text position kind ⟨c.mark, token⟩) :
    (t.record position kind c token).Onward := by
  intro source hsource position' kind' memo hentry
  obtain rfl : c.source = source := by simpa [MemoTable.record] using hsource
  rcases getElem?_record hentry with ⟨hkey, rfl⟩ | ⟨hbound, hentry⟩
  · obtain ⟨rfl, rfl⟩ := Memo.key_inj.1 hkey
    exact hmemo
  · exact h c.source hbound position' kind' memo hentry

end MemoTable.Onward

/-! ### Moving forward -/

/-- The table leads forward, and the cursor fits its text. -/
structure Parsing.Ready (s : Parsing) : Prop where
  table : s.parser.memo.Onward
  fits : s.cursor.mark.Fits s.cursor.source.text

/-- The second state is ready again, on the same source and not before the first. -/
structure Parsing.Goes (s s' : Parsing) : Prop where
  ready : s'.Ready
  source : s'.cursor.source = s.cursor.source
  le : s.cursor.position ≤ s'.cursor.position

namespace Parsing

variable {s s' s'' : Parsing}

namespace Ready

theorem goes_self (h : s.Ready) : s.Goes s := ⟨h, rfl, le_rfl⟩

theorem begin (h : s.Ready) : Ready { s with cursor := s.cursor.begin } := ⟨h.table, h.fits⟩

/-- The cursor has moved over a text. -/
theorem goes (h : s.Ready) {m : Mark} {cs : List Char} (hpass : s.cursor.mark.Passes cs m) :
    s.Goes { s with cursor := s.cursor.moveTo m } :=
  ⟨⟨h.table, h.fits.takes hpass.takes⟩, rfl, hpass.offset_le⟩

end Ready

namespace Goes

theorem trans (h : s.Goes s') (h' : s'.Goes s'') : s.Goes s'' :=
  ⟨h'.ready, h'.source.trans h.source, h.le.trans h'.le⟩

theorem length_le (h : s.Goes s') (hs : s.Ready) :
    s'.cursor.mark.rest.length ≤ s.cursor.mark.rest.length :=
  hs.fits.length_le (h.source ▸ h.ready.fits) h.le

theorem length_lt (h : s.Goes s') (hs : s.Ready) (hlt : s.cursor.position < s'.cursor.position) :
    s'.cursor.mark.rest.length < s.cursor.mark.rest.length :=
  hs.fits.length_lt (h.source ▸ h.ready.fits) hlt

end Goes

end Parsing

/-- The action returns, closes the transactions that it opens, and does not go back. -/
structure Proceeds {α : Type} (x : ParseM α) : Prop where
  balanced : Balanced x
  run (s : Parsing) : s.Ready → ∃ a s', StateT.run x s = .ok (a, s') ∧ s.Goes s'

/-- The rule proceeds, and what it matches takes at least one character. -/
structure Gains {α : Type} (x : OptionT ParseM α) : Prop where
  proceeds : Proceeds x.run
  lt {s s' : Parsing} {a : α} : s.Ready → StateT.run x.run s = .ok (some a, s') →
    s.cursor.position < s'.cursor.position

/-- A token moves the cursor forward, whether it comes from the table or from the text. -/
theorem ParseM.token_onward {kind : TokenKind} {text : String} {expected : Option String}
    {find : Cursor → Except Unbalanced (Option String × Cursor)}
    (hexpected : kind = .keyword → expected = some text) (hfind : kind.FoundBy text find)
    {s : Parsing} (hs : s.Ready) :
    ∃ result s', StateT.run (token kind expected find).run s = .ok (result, s') ∧ s.Goes s' ∧
      (result.isSome = true → (kind = .keyword → text ≠ "") →
        s.cursor.position < s'.cursor.position) := by
  rw [run_token, hfind]
  cases hlookup : s.parser.memo.lookup? s.cursor.position kind expected s.cursor with
  | some found =>
    obtain ⟨token, c⟩ := found
    obtain ⟨hsource, memo, hentry, hsame, rfl, rfl⟩ := MemoTable.lookup?_eq_some_iff.1 hlookup
    obtain ⟨hfits, hle, hlt⟩ := hs.table _ hsource _ kind memo hentry
    refine ⟨_, _, rfl, ⟨⟨hs.table, hfits⟩, rfl, hle⟩, fun _ htext => hlt fun hkeyword => ?_⟩
    -- The keyword of the entry is the one that was asked for.
    rw [hexpected hkeyword] at hsame
    simp only [Option.all_some, decide_eq_true_eq] at hsame
    exact hsame ▸ htext hkeyword
  | none =>
    cases htoken : kind.find? text s.cursor.mark.skipSpace with
    | none =>
      exact ⟨_, _, rfl, hs.goes s.cursor.mark.skipSpace_passes, by simp⟩
    | some found =>
      obtain ⟨token, m⟩ := found
      have hmemo := Memo.Onward.of_find? hs.fits htoken
      refine ⟨_, _, rfl, ⟨⟨hs.table.record hmemo, hmemo.fits⟩, rfl, hmemo.le⟩,
        fun _ htext => hmemo.lt fun hkeyword => ?_⟩
      subst hkeyword
      obtain ⟨_, _, heq⟩ := Option.map_eq_some_iff.1 htoken
      cases heq
      exact htext rfl

namespace Proceeds

variable {α β : Type}

theorem pure (a : α) : Proceeds (pure a) where
  balanced := .pure a
  run s hs := ⟨a, s, rfl, hs.goes_self⟩

theorem bind {x : ParseM α} {f : α → ParseM β} (h : Proceeds x) (hf : ∀ a, Proceeds (f a)) :
    Proceeds (x >>= f) where
  balanced := h.balanced.bind fun a => (hf a).balanced
  run s hs := by
    obtain ⟨a, s', hx, hgoes⟩ := h.run s hs
    obtain ⟨b, s'', hy, hgoes'⟩ := (hf a).run s' hgoes.ready
    refine ⟨b, s'', ?_, hgoes.trans hgoes'⟩
    rw [StateT.run_bind, hx]
    exact hy

theorem next {x : OptionT ParseM α} {f : α → OptionT ParseM β} (h : Proceeds x.run)
    (hf : ∀ a, Proceeds (f a).run) : Proceeds (x >>= f).run := by
  rw [OptionT.run_bind]
  refine h.bind fun found => ?_
  cases found with
  | none => exact pure none
  | some a => exact hf a

theorem token {kind : TokenKind} {text : String} {expected : Option String}
    {find : Cursor → Except Unbalanced (Option String × Cursor)}
    (hexpected : kind = .keyword → expected = some text) (hfind : kind.FoundBy text find) :
    Proceeds (ParseM.token kind expected find).run where
  balanced := .token hfind expected
  run s hs := by
    obtain ⟨result, s', hrun, hgoes, -⟩ := ParseM.token_onward hexpected hfind hs
    exact ⟨result, s', hrun, hgoes⟩

theorem indent : Proceeds (Scanner.indent (m := ParseM)).run where
  balanced := .indent
  run s hs := by
    obtain ⟨cs, hpass, hc⟩ := s.cursor.matchIndent_passes
    rw [ParseM.run_indent, hc]
    exact ⟨_, _, rfl, hs.goes hpass⟩

theorem attempt {x : OptionT ParseM α} (h : Proceeds x.run) :
    Proceeds (Scanner.attempt x).run where
  balanced := h.balanced.attempt
  run s hs := by
    obtain ⟨result, s', hrun, hgoes⟩ := h.run _ hs.begin
    change ∃ a s', StateT.run (ParseM.transaction x).run s = _ ∧ _
    rw [h.balanced.transaction_eq, SnapshotM.run_attempt, hrun]
    -- What a failure has recorded stays in the table, and leads forward all the same.
    cases result with
    | none => exact ⟨_, _, rfl, ⟨hgoes.ready.table, hs.fits⟩, rfl, le_rfl⟩
    | some a =>
      refine ⟨_, _, rfl, ⟨hgoes.ready.table, ?_⟩, rfl, hgoes.le⟩
      have hfits := hgoes.ready.fits
      rwa [hgoes.source] at hfits

theorem remaining : Proceeds (Scanner.remaining (m := ParseM)) where
  balanced := .look fun s => ⟨s.cursor.mark.rest.length, rfl⟩
  run _ hs := ⟨_, _, rfl, hs.goes_self⟩

theorem report (kind : Diagnostic.Kind) : Proceeds (report (m := ParseM) kind).run where
  balanced := .report kind
  run _ hs := ⟨_, _, rfl, ⟨hs.table, hs.fits⟩, rfl, le_rfl⟩

end Proceeds

/-! ### What is matched takes something -/

namespace Gains

variable {α β : Type} {x y : OptionT ParseM α} {f : α → OptionT ParseM β}

theorem next (h : Gains x) (hf : ∀ a, Proceeds (f a).run) : Gains (x >>= f) where
  proceeds := h.proceeds.next hf
  lt {s s'' b} hs hrun := by
    obtain ⟨result, s', hrun', hgoes⟩ := h.proceeds.run s hs
    rw [OptionT.run_bind, Option.elimM, StateT.run_bind, hrun'] at hrun
    cases result with
    | none => cases hrun
    | some a =>
      obtain ⟨_, _, hrun'', hgoes'⟩ := (hf a).run s' hgoes.ready
      cases hrun''.symm.trans hrun
      exact (h.lt hs hrun').trans_le hgoes'.le

theorem orElse (h : Gains x) (h' : Gains y) : Gains (x <|> y) where
  proceeds := by
    rw [OptionT.run_orElse]
    refine h.proceeds.bind fun found => ?_
    cases found with
    | none => exact h'.proceeds
    | some a => exact .pure (some a)
  lt {s s'' a} hs hrun := by
    obtain ⟨result, s', hrun', hgoes⟩ := h.proceeds.run s hs
    rw [OptionT.run_orElse, Option.elimM, StateT.run_bind, hrun'] at hrun
    cases result with
    | none => exact hgoes.le.trans_lt (h'.lt hgoes.ready hrun)
    | some _ =>
      cases hrun
      exact h.lt hs hrun'

theorem map (h : Gains x) (f : α → β) : Gains (f <$> x) :=
  h.next fun a => .pure (some (f a))

theorem attempt (h : Gains x) : Gains (Scanner.attempt x) where
  proceeds := h.proceeds.attempt
  lt {s s'' a} hs hrun := by
    obtain ⟨result, s', hrun', -⟩ := h.proceeds.run _ hs.begin
    change StateT.run (ParseM.transaction x).run s = _ at hrun
    rw [h.proceeds.balanced.transaction_eq, SnapshotM.run_attempt, hrun'] at hrun
    cases result with
    | none => cases hrun
    | some _ =>
      cases hrun
      have hlt := h.lt hs.begin hrun'
      exact hlt

theorem token {kind : TokenKind} {text : String} {expected : Option String}
    {find : Cursor → Except Unbalanced (Option String × Cursor)}
    (hexpected : kind = .keyword → expected = some text) (hfind : kind.FoundBy text find)
    (htext : kind = .keyword → text ≠ "") :
    Gains (ParseM.token kind expected find) where
  proceeds := .token hexpected hfind
  lt {s s' a} hs hrun := by
    obtain ⟨_, _, hrun', -, hlt⟩ := ParseM.token_onward hexpected hfind hs
    cases hrun'.symm.trans hrun
    exact hlt rfl htext

theorem keyword {text : String} (htext : text ≠ "") : Gains (Scanner.keyword (m := ParseM) text) :=
  next (token (fun _ => rfl) (.keyword text) fun _ => htext) fun _ => .pure _

theorem identifier : Gains (Scanner.identifier (m := ParseM)) := token nofun .identifier nofun

theorem typeName : Gains (Scanner.typeName (m := ParseM)) := token nofun .typeName nofun

theorem indent : Gains (Scanner.indent (m := ParseM)) where
  proceeds := .indent
  lt {s s' width} hs hrun := by
    rw [ParseM.run_indent, Cursor.matchIndent] at hrun
    cases hindent : s.cursor.mark.indent? with
    | none => rw [hindent] at hrun; cases hrun
    | some found =>
      rw [hindent] at hrun
      cases hrun
      obtain ⟨tail, pad, -, -, -, -, -, hpass⟩ := Mark.indent?_eq_some_iff.1 hindent
      exact hpass.offset_lt (by simp)

end Gains

/-- **Every rule proceeds.** -/
theorem onward : Simulation (m := ParseM) (n := ParseM) (fun _ x y => x = y ∧ Proceeds x) where
  pure a := ⟨rfl, .pure a⟩
  bind h hf := ⟨by rw [h.1, funext fun a => (hf a).1], h.2.bind fun a => (hf a).2⟩
  keyword text := ⟨rfl, .next (.token (fun _ => rfl) (.keyword text)) fun _ => .pure _⟩
  identifier := ⟨rfl, Gains.identifier.proceeds⟩
  typeName := ⟨rfl, Gains.typeName.proceeds⟩
  indent := ⟨rfl, .indent⟩
  attempt h := ⟨congrArg (fun z => (Scanner.attempt z).run) h.1, h.2.attempt⟩
  remaining := ⟨rfl, .remaining⟩
  report kind := ⟨rfl, .report kind⟩

namespace Gains

theorem arrayType : Gains (Grammar.arrayType (m := ParseM)) :=
  attempt <| (keyword (by decide)).next fun _ => onward.typeName.2.next fun _ =>
    (onward.expect "]" .expectedCloseBracket).2.next fun _ => .pure _

theorem mapType : Gains (Grammar.mapType (m := ParseM)) :=
  attempt <| (keyword (by decide)).next fun _ => onward.typeName.2.next fun _ =>
    (onward.expect ":" .expectedColon).2.next fun _ =>
    (onward.orElse onward.typeName (onward.refuse .expectedTypeName)).2.next fun _ =>
    (onward.expect "\x7d" .expectedCloseBrace).2.next fun _ => .pure _

theorem typeExpr : Gains (Grammar.typeExpr (m := ParseM)) :=
  (typeName.map _).orElse <| arrayType.orElse <| mapType.orElse <|
    (keyword (by decide)).next fun _ => .pure _

theorem signature : Gains (Grammar.signature (m := ParseM)) :=
  attempt <| identifier.next fun _ => (onward.keyword "::").2.next fun _ =>
    onward.typeExprs.2.next fun _ =>
    (onward.orElse (onward.next (onward.keyword "=") fun _ => onward.typeExprs)
      (onward.succeed none)).2.next fun _ => .pure _

theorem line (block : Option Nat) : Gains (Grammar.line (m := ParseM) block) := by
  refine indent.next fun width => ?_
  by_cases deeper : block.any (· < width) = true
  · simp only [deeper, ↓reduceIte]
    exact (onward.report .unexpectedIndent).2.next fun _ => .pure _
  simp only [deeper]
  by_cases shallower : block.any (width < ·) = true
  · simp only [shallower, ↓reduceIte]
    exact .pure _
  simp only [shallower]
  exact onward.typeName.2.next fun _ => onward.typeName.2.next fun _ => .pure _

theorem typeDefinition : Gains (Grammar.typeDefinition (m := ParseM)) := by
  refine attempt <| (keyword (by decide)).next fun _ =>
    (onward.orElse onward.typeName (onward.refuse .expectedTypeName)).2.next fun name =>
    (onward.optional onward.typeName).2.next fun target => ?_
  cases target with
  | some target => exact .pure _
  | none =>
    refine (onward.expect ":" .expectedColon).2.next fun _ => onward.bound.2.next fun k =>
      (onward.members none k).2.next fun members => ?_
    cases members with
    | nil => exact .pure none
    | cons first others => exact .pure _

theorem deconstructorWithin : (k : Nat) → Gains (Grammar.deconstructorWithin (m := ParseM) k)
  | 0 => ⟨.pure none, fun _ hrun => nomatch hrun⟩
  | k + 1 => attempt <| (keyword (by decide)).next fun _ => onward.typeName.2.next fun _ =>
    (onward.elements (onward.deconstructorWithin k) 0 (k + 1)).2.next fun _ =>
    (onward.expect ")" .expectedCloseParen).2.next fun _ => .pure _

theorem deconstructor : Gains (Grammar.deconstructor (m := ParseM)) where
  proceeds := onward.deconstructor.2
  lt {s _ _} hs hrun := by
    rw [Grammar.deconstructor, ParseM.run_bound] at hrun
    exact (deconstructorWithin _).lt hs hrun

theorem function : Gains (Grammar.function (m := ParseM)) :=
  attempt <| identifier.next fun _ => .pure none

theorem declaration : Gains (Grammar.declaration (m := ParseM)) :=
  (typeDefinition.map _).orElse (signature.map _)

end Gains

/-- **A call takes at least one character, if it matches and is not the empty keyword.** -/
theorem Call.gains {call : Call} (h : call ≠ .keyword "") : Gains (call.rule (m := ParseM)) := by
  cases call with
  | keyword text => exact .keyword fun htext => h (htext ▸ rfl)
  | identifier => exact .identifier
  | typeName => exact .typeName
  | typeExpr => exact .typeExpr
  | signature => exact .signature
  | typeDefinition => exact .typeDefinition
  | deconstructor => exact .deconstructor
  | function => exact .function
  | declaration => exact .declaration

/-! ### Parsers that are reached -/

/-- A parser that has seen nothing but calls of rules, on any cursors on any sources.  Its
diagnostics may be taken, or be more than its calls have recorded. -/
inductive Parser.Reached : Parser → Prop
  | empty : Reached .empty
  | call {parser : Parser} (c : Cursor) (call : Call) {result : Option call.Result}
      {after : Parsing} : Reached parser → c.mark.Fits c.source.text →
        parser.run c call.rule = .ok (result, after) → Reached after.parser
  | record {parser : Parser} (recorded : List Diagnostic) :
      Reached parser → Reached { parser with recorded }

/-- **The table of a parser that is reached leads forward.** -/
theorem Parser.Reached.onward {parser : Parser} (h : parser.Reached) : parser.memo.Onward := by
  induction h with
  | empty => exact .empty
  | call c call _ hc hrun ih =>
    obtain ⟨_, _, hrun', hgoes⟩ := (Grammar.onward.call call).2.run ⟨_, c⟩ ⟨ih, hc⟩
    cases hrun'.symm.trans hrun
    exact hgoes.ready.table
  | record recorded _ ih => exact ih

/-! ### Loops -/

/-- The actions do the same where at most `k` characters are left. -/
def Same (k : Nat) {α : Type} (x y : ParseM α) : Prop :=
  ∀ s, s.Ready → s.cursor.mark.rest.length ≤ k → StateT.run x s = StateT.run y s

namespace Same

variable {α β : Type} {j k n n' : Nat}

theorem refl (k : Nat) (x : ParseM α) : Same k x x := fun _ _ _ => rfl

theorem run_eq {parser : Parser} {c : Cursor} {x y : OptionT ParseM α}
    (h : Same c.mark.rest.length x.run y.run) (hready : Parsing.Ready ⟨parser, c⟩) :
    parser.run c y = parser.run c x :=
  (h _ hready le_rfl).symm

theorem mono {x y : ParseM α} (h : Same k x y) (hjk : j ≤ k) : Same j x y :=
  fun s hs hj => h s hs (hj.trans hjk)

theorem congr_left {x y : ParseM α} (h : Same k x y) (f : α → ParseM β) :
    Same k (x >>= f) (y >>= f) := by
  intro s hs hk
  rw [StateT.run_bind, StateT.run_bind, h s hs hk]

theorem congr_right {x : ParseM α} {f g : α → ParseM β}
    (hx : ∀ s, s.Ready → ∃ a s', StateT.run x s = .ok (a, s') ∧ s.Goes s')
    (hf : ∀ a, Same k (f a) (g a)) : Same k (x >>= f) (x >>= g) := by
  intro s hs hk
  obtain ⟨a, s', hrun, hgoes⟩ := hx s hs
  rw [StateT.run_bind, StateT.run_bind, hrun]
  exact hf a s' hgoes.ready ((hgoes.length_le hs).trans hk)

theorem next {x : OptionT ParseM α} {f g : α → OptionT ParseM β} (hx : Proceeds x.run)
    (hf : ∀ a, Same k (f a).run (g a).run) : Same k (x >>= f).run (x >>= g).run := by
  rw [OptionT.run_bind, OptionT.run_bind]
  refine congr_right hx.run fun found => ?_
  cases found with
  | none => exact refl k _
  | some a => exact hf a

/-- What comes behind may stay as it is. -/
theorem andThen {x y : OptionT ParseM α} (h : Same k x.run y.run) (f : α → OptionT ParseM β) :
    Same k (x >>= f).run (y >>= f).run := by
  rw [OptionT.run_bind, OptionT.run_bind]
  exact h.congr_left _

theorem orElse {x y : OptionT ParseM α} (h : Same k x.run y.run) (z : OptionT ParseM α) :
    Same k (x <|> z).run (y <|> z).run := by
  rw [OptionT.run_orElse, OptionT.run_orElse]
  exact h.congr_left _

theorem attempt {x y : OptionT ParseM α} (h : Same k x.run y.run) :
    Same k (Scanner.attempt x).run (Scanner.attempt y).run := by
  intro s hs hk
  change StateT.run (ParseM.transaction x).run s = StateT.run (ParseM.transaction y).run s
  rw [ParseM.run_transaction, ParseM.run_transaction, h _ hs.begin hk]

/-- Behind a match there is less left. -/
theorem after {x y : OptionT ParseM α} {f g : Option α → ParseM β} (hx : Gains x)
    (h : Same k x.run y.run) (hnone : Same k (f none) (g none))
    (hsome : ∀ a, ∀ j < k, Same j (f (some a)) (g (some a))) :
    Same k (x.run >>= f) (y.run >>= g) := by
  intro s hs hk
  obtain ⟨result, s', hrun, hgoes⟩ := hx.proceeds.run s hs
  rw [StateT.run_bind, StateT.run_bind, ← h s hs hk, hrun]
  cases result with
  | none => exact hnone s' hgoes.ready ((hgoes.length_le hs).trans hk)
  | some a =>
    have hlt := hgoes.length_lt hs (hx.lt hs hrun)
    exact hsome a _ (hlt.trans_le hk) s' hgoes.ready le_rfl

theorem behind {x : OptionT ParseM α} {f g : α → OptionT ParseM β} (hx : Gains x)
    (hf : ∀ a, ∀ j < k, Same j (f a).run (g a).run) : Same k (x >>= f).run (x >>= g).run := by
  rw [OptionT.run_bind, OptionT.run_bind]
  exact after hx (refl k _) (refl k _) hf

/-- A loop goes on behind a match. -/
theorem loop {x y : OptionT ParseM α} {f g : Option α → OptionT ParseM β} (hx : Gains x)
    (h : Same k x.run y.run) (hnone : Same k (f none).run (g none).run)
    (hsome : ∀ a, ∀ j < k, Same j (f (some a)).run (g (some a)).run) :
    Same k (optional x >>= f).run (optional y >>= g).run := by
  have hrun (z : OptionT ParseM α) (f : Option α → OptionT ParseM β) :
      (optional z >>= f).run = z.run >>= fun found => (f found).run := by
    simp only [optional, OptionT.run_bind, OptionT.run_orElse, Option.elimM, map_eq_pure_bind,
      bind_assoc]
    refine congrArg (z.run >>= ·) (funext fun found => ?_)
    cases found <;> simp
  rw [hrun, hrun]
  exact after hx h hnone hsome

theorem manyOr {rule : OptionT ParseM α} (hrule : Gains rule)
    (spent spent' : OptionT ParseM (List α)) (hn : k < n) (hn' : k < n') :
    Same k (manyOr spent rule n).run (manyOr spent' rule n').run := by
  induction n generalizing k n' with
  | zero => omega
  | succ n ih =>
    obtain ⟨n', rfl⟩ := Nat.exists_eq_add_one_of_ne_zero (Nat.ne_zero_of_lt hn')
    refine loop hrule (refl k _) (refl k _) fun a j hj => ?_
    exact (@ih j n' (by omega) (by omega)).andThen _

theorem membersOr (spent spent' : OptionT ParseM (List Member)) (block : Option Nat) (hn : k < n)
    (hn' : k < n') : Same k (membersOr spent block n).run (membersOr spent' block n').run := by
  induction n generalizing k n' block with
  | zero => omega
  | succ n ih =>
    obtain ⟨n', rfl⟩ := Nat.exists_eq_add_one_of_ne_zero (Nat.ne_zero_of_lt hn')
    refine loop (Gains.line block).attempt (refl k _) (refl k _) fun found j hj => ?_
    cases found with
    | member width member => exact (@ih j n' (some width) (by omega) (by omega)).andThen _
    | shallower => exact refl j _
    | deeper => exact refl j _

theorem elementsOr {nested nested' : OptionT ParseM Deconstructor} (hnested : Gains nested)
    (h : Same k nested.run nested'.run) (spent spent' : OptionT ParseM (List Deconstructor.Element))
    (index : Nat) (hn : k < n) (hn' : k < n') :
    Same k (elementsOr spent nested index n).run (elementsOr spent' nested' index n').run := by
  induction n generalizing k n' index with
  | zero => omega
  | succ n ih =>
    obtain ⟨n', rfl⟩ := Nat.exists_eq_add_one_of_ne_zero (Nat.ne_zero_of_lt hn')
    refine loop ((hnested.map _).orElse (Gains.identifier.map _))
      ((h.andThen _).orElse _) (refl k _) fun e j hj => ?_
    exact (@ih j n' (h.mono hj.le) (index + 1) (by omega) (by omega)).andThen _

theorem deconstructorWithinOr (spent : OptionT ParseM (List Deconstructor.Element))
    (tooDeep : OptionT ParseM Deconstructor) (hn : k < n) (hn' : k < n') :
    Same k (deconstructorWithin n).run (deconstructorWithinOr spent tooDeep n').run := by
  induction n generalizing k n' with
  | zero => omega
  | succ n ih =>
    obtain ⟨n', rfl⟩ := Nat.exists_eq_add_one_of_ne_zero (Nat.ne_zero_of_lt hn')
    -- Behind the parenthesis there is less left for the nested ones.
    refine attempt (behind (Gains.keyword (by decide)) fun _ j hj => ?_)
    refine next onward.typeName.2 fun typeName => ?_
    have hnested := @ih j n' (by omega) (by omega)
    exact (elementsOr (.deconstructorWithin n) hnested _ spent 0 (by omega) (by omega)).andThen _

end Same

end Grammar

end DeclLang
