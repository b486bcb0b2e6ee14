import Mathlib.Data.Option.Basic
import DeclLang.Grammar.Parser
import DeclLang.Proofs.Grammar.Reading
import DeclLang.Proofs.Grammar.Simulation
import DeclLang.Proofs.Text.LineBreak

/-!
# A parser reads as if it had no memo table

A memo table is *faithful* when each of its entries is the token that stands at that position of
the source the table is bound to, with the mark behind it.  Since a mark of a text is known by its
offset, looking a token up in a faithful table is the same as looking for it in the text
(`MemoTable.Faithful.lookup?`), and recording a token that was found keeps the table faithful
(`MemoTable.Faithful.record`), also when that rebinds the table to another source.

`Tracks` relates a parser at work on a cursor to a plain reader of the text, and
`ParseM.simulation` says that the two take the same steps: same results, same marks, same
diagnostics.  The transactions that are open on the cursor are not touched, and no rule closes one
that it did not open.
-/

namespace DeclLang

/-- A word is looked for behind the blanks. -/
theorem Text.Cursor.matchWord_eq (c : Cursor) (first more : Char → Bool) :
    c.matchWord first more = match c.mark.skipSpace.word? first more with
      | some (word, m) => (some word, c.moveTo m)
      | none => (none, c.skipSpace) := by
  rw [matchWord]
  cases hfound : c.mark.skipSpace.word? first more <;> simp [skipSpace, moveTo, hfound]

namespace Grammar

open Text

/-! ### Faithful tables -/

/-- Every token of the table stands in the source at its position. -/
def MemoTable.Faithful (t : MemoTable) : Prop :=
  ∀ source, t.source = some source → ∀ m : Mark, m.On source.text → ∀ kind memo,
    t.entries[Memo.key m.place.offset kind]? = some memo →
      kind.find? memo.token m.skipSpace = some (memo.token, memo.mark)

namespace MemoTable

/-- What a token is looked for by is the token, if it is found. -/
theorem find?_of_find? {kind : TokenKind} {expected token : String} {m m' : Mark}
    (h : kind.find? expected m = some (token, m')) :
    kind.find? token m = some (token, m') := by
  cases kind with
  | keyword =>
    obtain ⟨m'', hfound, heq⟩ := Option.map_eq_some_iff.1 h
    cases heq
    exact h
  | identifier => exact h
  | typeName => exact h

theorem faithful_empty : empty.Faithful := by
  intro source h
  simp [empty] at h

variable {t : MemoTable} {c : Cursor} {kind : TokenKind} {expected : Option String}

theorem lookup?_eq_some_iff {position : Nat} {token : String} {c' : Cursor} :
    t.lookup? position kind expected c = some (token, c') ↔
      t.source = some c.source ∧ ∃ memo, t.entries[Memo.key position kind]? = some memo ∧
        expected.all (· = memo.token) = true ∧ memo.token = token ∧ c.moveTo memo.mark = c' := by
  simp [lookup?, Option.bind_eq_some_iff]

/-- An entry of a table is the one just recorded, or was there before, on the same source. -/
theorem getElem?_record {position key : Nat} {token : String} {memo : Memo}
    (h : (t.record position kind c token).entries[key]? = some memo) :
    Memo.key position kind = key ∧ ⟨c.mark, token⟩ = memo ∨
      t.source = some c.source ∧ t.entries[key]? = some memo := by
  simp only [record, Std.TreeMap.getElem?_insert] at h
  split at h
  case isTrue hkey => exact .inl ⟨Nat.compare_eq_eq.1 hkey, Option.some.inj h⟩
  case isFalse =>
    split at h
    case isTrue hbound => exact .inr ⟨hbound, h⟩
    case isFalse => simp at h

namespace Faithful

/-- **A token from the table is the token in the text.** -/
theorem lookup? (ht : t.Faithful) (hc : c.mark.On c.source.text) {token : String} {c' : Cursor}
    (h : t.lookup? c.position kind expected c = some (token, c')) :
    (∀ e ∈ expected, e = token) ∧
      ∃ m', kind.find? token c.mark.skipSpace = some (token, m') ∧ c' = c.moveTo m' := by
  obtain ⟨hsource, memo, hentry, hexpected, rfl, rfl⟩ := lookup?_eq_some_iff.1 h
  refine ⟨?_, memo.mark, ht c.source hsource c.mark hc kind memo hentry, rfl⟩
  simpa [Option.all_eq_true] using hexpected

/-- **A token that was found may be recorded.** -/
theorem record (ht : t.Faithful) (hc : c.mark.On c.source.text) {token : String} {m' : Mark}
    (h : kind.find? token c.mark.skipSpace = some (token, m')) :
    (t.record c.position kind (c.moveTo m') token).Faithful := by
  intro source hsource m hm kind' memo hentry
  obtain rfl : c.source = source := by simpa [MemoTable.record, Cursor.moveTo] using hsource
  rcases getElem?_record hentry with ⟨hkey, rfl⟩ | ⟨hbound, hentry⟩
  · -- the new entry: the mark is the one the token was found from
    obtain ⟨hoffset, rfl⟩ := Memo.key_inj.1 hkey
    obtain rfl : c.mark = m := hc.eq_of_offset_eq hm hoffset
    exact h
  · exact ht c.source hbound m hm kind' memo hentry

end Faithful

end MemoTable

/-! ### Looking for a token -/

/-- The function finds a token of the kind behind the blanks, or else stays behind them.  Either
way it closes the transactions that it opens, and no other. -/
def TokenKind.FoundBy (kind : TokenKind) (text : String)
    (find : Cursor → Except Unbalanced (Option String × Cursor)) : Prop :=
  ∀ c, find c = .ok (match kind.find? text c.mark.skipSpace with
    | some (token, m) => (some token, c.moveTo m)
    | none => (none, c.skipSpace))

namespace TokenKind.FoundBy

theorem keyword (text : String) : FoundBy .keyword text fun c => do
    let (found, c) ← c.readKeyword text
    return (if found then some text else none, c) := by
  intro c
  simp only [c.readKeyword_eq, Cursor.matchKeyword, TokenKind.find?, Cursor.skipSpace,
    Cursor.moveTo]
  cases c.mark.skipSpace.literal? text.toList <;> rfl

theorem identifier : FoundBy .identifier "" fun c => c.readWord isVariableStart isNameChar :=
  fun c => (c.readWord_eq _ _).trans (congrArg _ (c.matchWord_eq isVariableStart isNameChar))

theorem typeName : FoundBy .typeName "" fun c => c.readWord isTypeStart isNameChar :=
  fun c => (c.readWord_eq _ _).trans (congrArg _ (c.matchWord_eq isTypeStart isNameChar))

end TokenKind.FoundBy

/-! ### Running a parser -/

namespace ParseM

variable {α : Type} (s : Parsing)

theorem run_get (k : Parsing → OptionT ParseM α) :
    StateT.run (get >>= k : OptionT ParseM α).run s = StateT.run (k s).run s := rfl

/-- What may be a fault comes first. -/
theorem run_liftM {β : Type} (x : Except Unbalanced β) (k : β → OptionT ParseM α) :
    StateT.run (liftM x >>= k : OptionT ParseM α).run s =
      x >>= fun b => StateT.run (k b).run s := by
  cases x <;> rfl

theorem run_token (kind : TokenKind) (expected : Option String)
    (find : Cursor → Except Unbalanced (Option String × Cursor)) :
    StateT.run (token kind expected find).run s =
      match s.parser.memo.lookup? s.cursor.position kind expected s.cursor with
      | some (token, c) => .ok (some token, { s with cursor := c })
      | none =>
        match find s.cursor with
        | .error e => .error e
        | .ok (some token, c) =>
          .ok (some token, ⟨{ s.parser with
            memo := s.parser.memo.record s.cursor.position kind c token }, c⟩)
        | .ok (none, c) => .ok (none, { s with cursor := c }) := by
  rw [token, run_get]
  cases s.parser.memo.lookup? s.cursor.position kind expected s.cursor with
  | some found => rfl
  | none =>
    simp only [run_liftM]
    rcases find s.cursor with e | ⟨_ | token, c⟩ <;> rfl

theorem run_close (f : Cursor → Except Unbalanced Cursor) :
    StateT.run (close f) s = (f s.cursor).map fun c => ((), { s with cursor := c }) := by
  have hrun : StateT.run (close f) s = (f s.cursor >>= fun c => .ok (c, s)) >>= fun p =>
      .ok ((), { s with cursor := p.1 }) := rfl
  rw [hrun]
  cases f s.cursor <;> rfl

theorem run_transaction (rule : OptionT ParseM α) :
    StateT.run (transaction rule).run s =
      match StateT.run rule.run { s with cursor := s.cursor.begin } with
      | .error e => .error e
      | .ok (some a, s') => s'.cursor.commit.map fun c => (some a, { s' with cursor := c })
      | .ok (none, s') => s'.cursor.rollback.map fun c => (none, { s' with cursor := c }) := by
  have hrun : StateT.run (transaction rule).run s =
      (StateT.run rule.run { s with cursor := s.cursor.begin } >>= fun p =>
        StateT.run (close (if p.1.isSome then Cursor.commit else Cursor.rollback)) p.2 >>= fun q =>
          .ok (p.1, q.2)) := rfl
  rw [hrun]
  rcases StateT.run rule.run { s with cursor := s.cursor.begin } with e | ⟨_ | a, s'⟩
  · rfl
  · change (StateT.run (close Cursor.rollback) s' >>= fun q => .ok (none, q.2)) =
      s'.cursor.rollback.map fun c => (none, { s' with cursor := c })
    rw [run_close]
    cases s'.cursor.rollback <;> rfl
  · change (StateT.run (close Cursor.commit) s' >>= fun q => .ok (some a, q.2)) =
      s'.cursor.commit.map fun c => (some a, { s' with cursor := c })
    rw [run_close]
    cases s'.cursor.commit <;> rfl

/-- The indentation is read in a transaction, which does not show. -/
theorem run_indent :
    StateT.run (Scanner.indent (m := ParseM)).run s =
      .ok (s.cursor.matchIndent.1, { s with cursor := s.cursor.matchIndent.2 }) := by
  have hrun : StateT.run (Scanner.indent (m := ParseM)).run s =
      StateT.run (liftM s.cursor.readIndent >>= fun found => do
        set { s with cursor := found.2 }
        OptionT.mk (pure found.1) : OptionT ParseM Nat).run s := rfl
  rw [hrun, run_liftM, Cursor.readIndent_eq]
  rfl

end ParseM

/-! ### A parser beside a reader -/

/-- A parser at work on a cursor and a reader are at the same mark.  The reader knows of the
diagnostics recorded since `kept`. -/
structure Tracks (kept : List Diagnostic) (s : Parsing) (r : Reading) : Prop where
  faithful : s.parser.memo.Faithful
  on : s.cursor.mark.On s.cursor.source.text
  filename : r.filename = s.cursor.filename
  mark : r.mark = s.cursor.mark
  recorded : s.parser.recorded = kept ++ r.recorded

namespace Tracks

variable {kept : List Diagnostic} {s : Parsing} {r : Reading}

/-- Both move on to another mark of the text. -/
theorem moveTo (h : Tracks kept s r) {m : Mark} (hm : m.On s.cursor.source.text) :
    Tracks kept { s with cursor := s.cursor.moveTo m } { r with mark := m } :=
  ⟨h.faithful, hm, h.filename, rfl, h.recorded⟩

theorem moveTo_mark (h : Tracks kept s r) : s.cursor.moveTo r.mark = s.cursor := by
  rw [h.mark]; rfl

/-- A transaction does not show. -/
theorem begin (h : Tracks kept s r) : Tracks kept { s with cursor := s.cursor.begin } r :=
  ⟨h.faithful, h.on, h.filename, h.mark, h.recorded⟩

end Tracks

/-- The action of a parser ends as that of a reader does, and of its cursor it changes the mark
alone. -/
def Agree (kept : List Diagnostic) (α : Type) (x : ParseM α) (y : ReadM α) : Prop :=
  ∀ s r, Tracks kept s r → ∃ s', StateT.run x s = .ok ((ReadM.run y r).1, s') ∧
    Tracks kept s' (ReadM.run y r).2 ∧ s'.cursor = s.cursor.moveTo (ReadM.run y r).2.mark

namespace Agree

variable {kept : List Diagnostic} {α β : Type}

/-- An action that looks and does not touch. -/
theorem look {x : ParseM α} {y : ReadM α} (h : ∀ s r, Tracks kept s r →
    ∃ a, StateT.run x s = .ok (a, s) ∧ ReadM.run y r = (a, r)) : Agree kept α x y := by
  intro s r hs
  obtain ⟨a, hx, hy⟩ := h s r hs
  rw [hy]
  exact ⟨s, hx, hs, hs.moveTo_mark.symm⟩

theorem pure (a : α) : Agree kept α (pure a) (pure a) := look fun _ _ _ => ⟨a, rfl, rfl⟩

theorem bind {x : ParseM α} {y : ReadM α} {f : α → ParseM β} {g : α → ReadM β}
    (h : Agree kept α x y) (hf : ∀ a, Agree kept β (f a) (g a)) :
    Agree kept β (x >>= f) (y >>= g) := by
  intro s r hs
  obtain ⟨s', hx, hs', hc⟩ := h s r hs
  obtain ⟨s'', hy, hs'', hc'⟩ := hf _ s' _ hs'
  refine ⟨s'', ?_, hs'', ?_⟩
  · rw [StateT.run_bind, hx]
    exact hy
  · rw [ReadM.run_bind, hc', hc]; rfl

theorem next {x : OptionT ParseM α} {y : OptionT ReadM α} {f : α → OptionT ParseM β}
    {g : α → OptionT ReadM β} (h : Agree kept _ x.run y.run)
    (hf : ∀ a, Agree kept _ (f a).run (g a).run) : Agree kept _ (x >>= f).run (y >>= g).run := by
  rw [OptionT.run_bind, OptionT.run_bind]
  refine h.bind fun r => ?_
  cases r with
  | none => exact Agree.pure none
  | some a => exact hf a

/-- Finding a token, in the table or in the text. -/
theorem token {kind : TokenKind} {expected : Option String} {text : String}
    {find : Cursor → Except Unbalanced (Option String × Cursor)}
    (hexpected : kind = .keyword → expected = some text) (hfind : kind.FoundBy text find) :
    Agree kept _ (ParseM.token kind expected find).run (ReadM.token kind text).run := by
  intro s r h
  rw [ParseM.run_token, ReadM.run_token, hfind, h.mark]
  cases hlookup : s.parser.memo.lookup? s.cursor.position kind expected s.cursor with
  | some found =>
    -- What is in the table is what the reader finds, whoever recorded it.
    obtain ⟨token, c'⟩ := found
    obtain ⟨hsame, m', hentry, rfl⟩ := h.faithful.lookup? h.on hlookup
    have htoken : kind.find? text s.cursor.mark.skipSpace = some (token, m') := by
      cases kind with
      | keyword =>
        obtain rfl := hsame text (by rw [hexpected rfl]; rfl)
        exact hentry
      | identifier => exact hentry
      | typeName => exact hentry
    rw [htoken]
    exact ⟨_, rfl, h.moveTo (h.on.skipSpace.passes (TokenKind.passes_of_find? htoken)), rfl⟩
  | none =>
    cases htoken : kind.find? text s.cursor.mark.skipSpace with
    | none => exact ⟨_, rfl, h.moveTo h.on.skipSpace, rfl⟩
    | some found =>
      obtain ⟨token, m'⟩ := found
      have hm' := h.on.skipSpace.passes (TokenKind.passes_of_find? htoken)
      have hrecord := h.faithful.record h.on (MemoTable.find?_of_find? htoken)
      exact ⟨_, rfl, ⟨hrecord, hm', h.filename, rfl, h.recorded⟩, rfl⟩

theorem indent : Agree kept _ (Scanner.indent (m := ParseM)).run
    (Scanner.indent (m := ReadM)).run := by
  intro s r h
  rw [ParseM.run_indent, ReadM.run_indent, Cursor.matchIndent, h.mark]
  cases hindent : s.cursor.mark.indent? with
  | none => exact ⟨s, rfl, h, h.moveTo_mark.symm⟩
  | some found =>
    obtain ⟨width, m'⟩ := found
    obtain ⟨tail, pad, -, -, -, -, -, hpass⟩ := Mark.indent?_eq_some_iff.1 hindent
    exact ⟨_, rfl, h.moveTo (h.on.passes hpass), rfl⟩

theorem attempt {x : OptionT ParseM α} {y : OptionT ReadM α} (h : Agree kept _ x.run y.run) :
    Agree kept _ (ParseM.transaction x).run (Scanner.attempt y).run := by
  intro s r hs
  obtain ⟨s', hx, hs', hc⟩ := h _ r hs.begin
  rw [ParseM.run_transaction, ReadM.run_attempt, hx]
  rcases hy : ReadM.run y.run r with ⟨_ | a, r'⟩ <;> rw [hy] at hs' hc
  · -- The rollback restores the mark that was saved, since the rule left it saved.
    refine ⟨{ s' with cursor := s.cursor }, ?_,
      ⟨hs'.faithful, hs.on, ?_, hs.mark, hs'.recorded⟩, ?_⟩
    · simp only [hc]; rfl
    · rw [hs'.filename, hc]; rfl
    · exact hs.moveTo_mark.symm
  · refine ⟨{ s' with cursor := s.cursor.moveTo r'.mark }, ?_, ?_, rfl⟩
    · simp only [hc]; rfl
    · have hmark : r'.mark.On s.cursor.source.text := by
        have := hs'.on
        rwa [hc] at this
      exact ⟨hs'.faithful, hmark, by rw [hs'.filename, hc]; rfl, rfl, hs'.recorded⟩

theorem report (kind : Diagnostic.Kind) :
    Agree kept _ (report (m := ParseM) kind).run (report (m := ReadM) kind).run := by
  intro s r h
  refine ⟨{ s with parser.recorded := s.parser.recorded ++ [⟨kind, s.cursor.location⟩] }, rfl,
    ⟨h.faithful, h.on, h.filename, h.mark, ?_⟩, h.moveTo_mark.symm⟩
  change s.parser.recorded ++ [⟨kind, s.cursor.location⟩]
    = kept ++ (r.recorded ++ [⟨kind, ⟨r.filename, r.mark.place⟩⟩])
  rw [h.recorded, h.filename, h.mark, List.append_assoc]; rfl

theorem skipSpace : Agree kept _ (Scanner.skipSpace (m := ParseM)) Scanner.skipSpace := by
  intro s r h
  refine ⟨{ s with cursor := s.cursor.skipSpace }, rfl, ?_, ?_⟩
  · change Tracks kept { s with cursor := s.cursor.moveTo s.cursor.mark.skipSpace }
      { r with mark := r.mark.skipSpace }
    rw [h.mark]
    exact h.moveTo h.on.skipSpace
  · change s.cursor.moveTo s.cursor.mark.skipSpace = s.cursor.moveTo r.mark.skipSpace
    rw [h.mark]

theorem atEnd : Agree kept _ (Scanner.atEnd (m := ParseM)) Scanner.atEnd :=
  look fun s r h => ⟨s.cursor.atEnd, rfl, by rw [Cursor.atEnd, ← h.mark]; rfl⟩

theorem remaining : Agree kept _ (Scanner.remaining (m := ParseM)) Scanner.remaining :=
  look fun s r h => ⟨s.cursor.mark.rest.length, rfl, by rw [← h.mark]; rfl⟩

theorem location : Agree kept _ (Scanner.location (m := ParseM)) Scanner.location :=
  look fun s r h => ⟨s.cursor.location, rfl, by
    rw [Cursor.location, ← h.mark, ← h.filename]; rfl⟩

/-- The diagnostics are all the reader's if none was kept from it. -/
theorem takeRecorded : Agree [] _ (Scanner.takeRecorded (m := ParseM)) Scanner.takeRecorded := by
  intro s r h
  refine ⟨{ s with parser.recorded := [] }, ?_, ⟨h.faithful, h.on, h.filename, h.mark, rfl⟩,
    h.moveTo_mark.symm⟩
  change Except.ok (s.parser.recorded, _) = .ok (r.recorded, _)
  rw [h.recorded]; rfl

end Agree

/-- **A parser takes the steps of a plain reader.** -/
theorem ParseM.simulation (kept : List Diagnostic) :
    Simulation (m := ParseM) (n := ReadM) (Agree kept) where
  pure := Agree.pure
  bind := Agree.bind
  keyword text := Agree.next (Agree.token (fun _ => rfl) (.keyword text)) fun _ => Agree.pure _
  identifier := Agree.token nofun .identifier
  typeName := Agree.token nofun .typeName
  indent := Agree.indent
  attempt := Agree.attempt
  remaining := Agree.remaining
  report := Agree.report

/-- **A parser with a faithful table does what a plain reader does.**  It adds to its diagnostics
and leaves the open transactions as they are. -/
theorem Parser.run_of_faithful {parser : Parser} {c : Cursor} (hmemo : parser.memo.Faithful)
    (hc : c.mark.On c.source.text) {α : Type} {x : OptionT ParseM α} {y : OptionT ReadM α}
    (h : Agree parser.recorded _ x.run y.run) :
    ∃ memo : MemoTable, memo.Faithful ∧
      (ReadM.run y.run ⟨c.filename, c.mark, []⟩).2.mark.On c.source.text ∧
      parser.run c x = .ok ((ReadM.run y.run ⟨c.filename, c.mark, []⟩).1,
        ⟨⟨memo, parser.recorded ++ (ReadM.run y.run ⟨c.filename, c.mark, []⟩).2.recorded⟩,
          c.moveTo (ReadM.run y.run ⟨c.filename, c.mark, []⟩).2.mark⟩) := by
  obtain ⟨⟨⟨memo, recorded⟩, c'⟩, hrun, htracks, hcursor⟩ :=
    h ⟨parser, c⟩ ⟨c.filename, c.mark, []⟩ ⟨hmemo, hc, rfl, rfl, (List.append_nil _).symm⟩
  have hon := htracks.on
  have hrecorded := htracks.recorded
  simp only at hcursor hrecorded hon
  subst hcursor hrecorded
  exact ⟨memo, htracks.faithful, hon, hrun⟩

/-- What a plain reader does for a call where a cursor stands. -/
def Call.reading (call : Call) (c : Cursor) : Option call.Result × Reading :=
  ReadM.run call.rule.run ⟨c.filename, c.mark, []⟩

theorem Parser.run_call {parser : Parser} {c : Cursor} (hmemo : parser.memo.Faithful)
    (hc : c.mark.On c.source.text) (call : Call) :
    ∃ memo : MemoTable, memo.Faithful ∧ (call.reading c).2.mark.On c.source.text ∧
      parser.run c call.rule =
        .ok ((call.reading c).1, ⟨⟨memo, parser.recorded ++ (call.reading c).2.recorded⟩,
          c.moveTo (call.reading c).2.mark⟩) :=
  run_of_faithful hmemo hc ((ParseM.simulation parser.recorded).call call)

end Grammar

end DeclLang
