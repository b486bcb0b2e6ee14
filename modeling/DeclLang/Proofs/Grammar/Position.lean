import Mathlib.Data.List.Forall2
import DeclLang.Proofs.Grammar.Termination

/-!
# Positions without lines and columns

A cursor that has read a line feed as a single character counts lines and columns of its own, and
by way of the memo table it hands them on.  What a rule finds does not depend on them: two marks
that are at one position of a text, by their offsets, have the same text before them
(`Mark.Fits.meets`), so the same tokens are there.

So the table of a parser that was put to work on any cursors holds, for each position, the tokens
that are found there and the positions behind them (`Parser.Reached.truthful`), and a call of a rule
returns what a plain reader returns, ends where the reader ends, and records the same things at the
same positions (`Parser.Reached.run_call`).  Only the lines and columns may be others.
-/

namespace DeclLang

namespace Text.Mark

/-! ### Marks at one position -/

/-- The marks are at one position of a text.  They may differ in line and column. -/
structure Meets (m m' : Mark) : Prop where
  rest : m'.rest = m.rest
  offset : m'.place.offset = m.place.offset

variable {text : String} {m m' n n' : Mark} {cs : List Char}

namespace Meets

theorem refl (m : Mark) : m.Meets m := ⟨rfl, rfl⟩

theorem symm (h : m.Meets m') : m'.Meets m := ⟨h.rest.symm, h.offset.symm⟩

theorem trans (h : m.Meets m') (h' : m'.Meets n) : m.Meets n :=
  ⟨h'.rest.trans h.rest, h'.offset.trans h.offset⟩

theorem fits (h : m.Meets m') (hm : m.Fits text) : m'.Fits text := by
  obtain ⟨before, htext, hoffset⟩ := fits_iff.1 hm
  exact fits_iff.2 ⟨before, by rw [h.rest, htext], by rw [h.offset, hoffset]⟩

/-- Behind one text they meet again. -/
theorem passes (h : m.Meets m') (hpass : m.Passes cs n) (hpass' : m'.Passes cs n') :
    n.Meets n' := by
  refine ⟨?_, ?_⟩
  · have hrest : cs ++ n'.rest = cs ++ n.rest := by rw [← hpass'.1, ← hpass.1, h.rest]
    exact List.append_cancel_left hrest
  · rw [hpass'.takes.2, hpass.takes.2, h.offset]

theorem skipSpace (h : m.Meets m') : m.skipSpace.Meets m'.skipSpace :=
  h.passes m.skipSpace_passes (h.rest ▸ m'.skipSpace_passes)

/-- Nothing is found at both marks, or the same, and behind it they meet again. -/
def Found {α : Type} (found found' : Option (α × Mark)) : Prop :=
  found = none ∧ found' = none ∨
    ∃ a n n', found = some (a, n) ∧ found' = some (a, n') ∧ n.Meets n'

theorem literal? (h : m.Meets m') (cs : List Char) (a : String) :
    Found ((m.literal? cs).map (a, ·)) ((m'.literal? cs).map (a, ·)) := by
  simp only [Mark.literal?, h.rest]
  split
  · refine .inr ⟨a, _, _, rfl, rfl, rfl, ?_⟩
    simpa [Place.offset_afterAll] using h.offset
  · exact .inl ⟨rfl, rfl⟩

theorem word? (h : m.Meets m') (first more : Char → Bool) :
    Found (m.word? first more) (m'.word? first more) := by
  simp only [Mark.word?, h.rest]
  split
  · exact .inl ⟨rfl, rfl⟩
  split
  · refine .inr ⟨_, _, _, rfl, rfl, rfl, ?_⟩
    simpa [skipWhile, Place.offset_afterAll, Place.offset_after] using h.offset
  · exact .inl ⟨rfl, rfl⟩

theorem indent? (h : m.Meets m') : Found m.indent? m'.indent? := by
  simp only [Mark.indent?, skipWhile, h.rest]
  split
  case h_1 more =>
    split
    case isTrue => exact .inl ⟨rfl, rfl⟩
    case isFalse =>
      refine .inr ⟨_, _, _, rfl, rfl, rfl, ?_⟩
      simpa [Place.offset_afterAll, Place.offset_after] using h.offset
  case h_2 => exact .inl ⟨rfl, rfl⟩

end Meets

/-- An offset is one position. -/
theorem Fits.meets (h : m.Fits text) (h' : m'.Fits text)
    (hoffset : m.place.offset = m'.place.offset) : m.Meets m' := by
  obtain ⟨cs, hrest, hsize⟩ := h.takes_of_length_le h' (h.length_le h' hoffset.le)
  have hlength := h'.length_le h hoffset.ge
  rw [hrest, List.length_append] at hlength
  obtain rfl : cs = [] := List.length_eq_zero_iff.1 (by omega)
  exact ⟨hrest.symm, hoffset.symm⟩

end Text.Mark

namespace Text.Cursor

/-! ### Texts between positions -/

/-- The text stands between the cursor and a position. -/
def Spans (c : Cursor) (text : List Char) (position : Nat) : Prop :=
  text <+: c.mark.rest ∧ position = c.position + (String.ofList text).utf8ByteSize

instance (c : Cursor) (text : List Char) (position : Nat) : Decidable (c.Spans text position) :=
  inferInstanceAs (Decidable (_ ∧ _))

theorem Spans.unique {c : Cursor} {text text' : List Char} {position : Nat}
    (h : c.Spans text position) (h' : c.Spans text' position) : text = text' := by
  obtain ⟨⟨rest, hrest⟩, hposition⟩ := h
  obtain ⟨⟨rest', hrest'⟩, hposition'⟩ := h'
  refine Place.eq_of_offset_afterAll_eq (p := c.mark.place) (hrest.trans hrest'.symm) ?_
  rw [Place.offset_afterAll, Place.offset_afterAll]
  exact hposition.symm.trans hposition'

end Text.Cursor

open Text

/-- The same thing is wrong at the same position. -/
structure Diagnostic.Meets (d d' : Diagnostic) : Prop where
  kind : d'.kind = d.kind
  filename : d'.location.filename = d.location.filename
  offset : d'.location.place.offset = d.location.place.offset

theorem Diagnostic.Meets.symm {d d' : Diagnostic} (h : d.Meets d') : d'.Meets d :=
  ⟨h.kind.symm, h.filename.symm, h.offset.symm⟩

theorem Diagnostic.Meets.trans {d d' d'' : Diagnostic} (h : d.Meets d') (h' : d'.Meets d'') :
    d.Meets d'' :=
  ⟨h'.kind.trans h.kind, h'.filename.trans h.filename, h'.offset.trans h.offset⟩

namespace Grammar

/-! ### Truthful tables -/

theorem TokenKind.find?_meets {m m' : Mark} (h : m.Meets m') (kind : TokenKind)
    (expected : String) : Mark.Meets.Found (kind.find? expected m) (kind.find? expected m') := by
  cases kind with
  | keyword => exact h.literal? expected.toList expected
  | identifier => exact h.word? isVariableStart isNameChar
  | typeName => exact h.word? isTypeStart isNameChar

/-- Every token of the table is found at its position, and ends at the position that is recorded. -/
def MemoTable.Truthful (t : MemoTable) : Prop :=
  ∀ source, t.source = some source → ∀ m : Mark, m.Fits source.text → ∀ kind memo,
    t.entries[Memo.key m.place.offset kind]? = some memo →
      ∃ m', kind.find? memo.token m.skipSpace = some (memo.token, m') ∧ m'.Meets memo.mark

namespace MemoTable.Truthful

variable {t : MemoTable} {c c' : Cursor} {kind : TokenKind} {expected : Option String}
  {token : String}

theorem empty : MemoTable.empty.Truthful := nofun

/-- A token from the table is the token in the text. -/
theorem lookup? (ht : t.Truthful) (hc : c.mark.Fits c.source.text)
    (h : t.lookup? c.position kind expected c = some (token, c')) :
    (∀ e ∈ expected, e = token) ∧ ∃ m n, kind.find? token c.mark.skipSpace = some (token, m) ∧
      m.Meets n ∧ c' = c.moveTo n := by
  obtain ⟨hsource, memo, hentry, hexpected, rfl, rfl⟩ := lookup?_eq_some_iff.1 h
  obtain ⟨m, hfound, hmeets⟩ := ht c.source hsource c.mark hc kind memo hentry
  exact ⟨by simpa [Option.all_eq_true] using hexpected, m, memo.mark, hfound, hmeets, rfl⟩

/-- A token that was found may be recorded. -/
theorem record (ht : t.Truthful) (hc : c.mark.Fits c.source.text) {m' : Mark}
    (h : kind.find? token c.mark.skipSpace = some (token, m')) :
    (t.record c.position kind (c.moveTo m') token).Truthful := by
  intro source hsource m hm kind' memo hentry
  obtain rfl : c.source = source := by simpa [MemoTable.record, Cursor.moveTo] using hsource
  rcases getElem?_record hentry with ⟨hkey, rfl⟩ | ⟨hbound, hentry⟩
  · obtain ⟨hoffset, rfl⟩ := Memo.key_inj.1 hkey
    rcases TokenKind.find?_meets (hc.meets hm hoffset).skipSpace kind token with
      ⟨hnone, -⟩ | ⟨token', n, n', hsome, hfound, hmeets⟩
    · rw [h] at hnone
      cases hnone
    · rw [h] at hsome
      cases hsome
      exact ⟨n', hfound, hmeets.symm⟩
  · exact ht c.source hbound m hm kind' memo hentry

end MemoTable.Truthful

/-! ### Parsers and readers at one position -/

/-- A parser at work on a cursor and a reader are at one position.  The reader knows of the
diagnostics recorded since `kept`. -/
structure Shadows (kept : List Diagnostic) (s : Parsing) (r : Reading) : Prop where
  truthful : s.parser.memo.Truthful
  fits : s.cursor.mark.Fits s.cursor.source.text
  filename : r.filename = s.cursor.filename
  mark : r.mark.Meets s.cursor.mark
  recorded : ∃ new, s.parser.recorded = kept ++ new ∧ List.Forall₂ Diagnostic.Meets r.recorded new

namespace Shadows

variable {kept : List Diagnostic} {s : Parsing} {r : Reading} {m n : Mark}

/-- Both move on, to one position of the text. -/
theorem moveTo (h : Shadows kept s r) (hmeets : m.Meets n) (hn : n.Fits s.cursor.source.text) :
    Shadows kept { s with cursor := s.cursor.moveTo n } { r with mark := m } :=
  ⟨h.truthful, hn, h.filename, hmeets, h.recorded⟩

/-- A transaction does not show. -/
theorem begin (h : Shadows kept s r) :
    Shadows kept { s with cursor := s.cursor.begin } r :=
  ⟨h.truthful, h.fits, h.filename, h.mark, h.recorded⟩

/-- What the reader has passed stands before the cursor. -/
theorem spans (h : Shadows kept s r) {c : Cursor} {text : List Char}
    (hpass : c.mark.Passes text r.mark) : c.Spans text s.cursor.position :=
  ⟨⟨_, hpass.1.symm⟩, h.mark.offset.trans hpass.takes.2⟩

end Shadows

/-- The action of a parser ends as that of a reader does, and of its cursor it changes the mark
alone. -/
def Shadowing (kept : List Diagnostic) (α : Type) (x : ParseM α) (y : ReadM α) : Prop :=
  ∀ s r, Shadows kept s r → ∃ s', StateT.run x s = .ok ((ReadM.run y r).1, s') ∧
    Shadows kept s' (ReadM.run y r).2 ∧ ∃ m, s'.cursor = s.cursor.moveTo m

namespace Shadowing

variable {kept : List Diagnostic} {α β : Type}

theorem pure (a : α) : Shadowing kept α (pure a) (pure a) := fun s _ h => ⟨s, rfl, h, _, rfl⟩

theorem bind {x : ParseM α} {y : ReadM α} {f : α → ParseM β} {g : α → ReadM β}
    (h : Shadowing kept α x y) (hf : ∀ a, Shadowing kept β (f a) (g a)) :
    Shadowing kept β (x >>= f) (y >>= g) := by
  intro s r hs
  obtain ⟨s', hx, hs', m, hc⟩ := h s r hs
  obtain ⟨s'', hy, hs'', m', hc'⟩ := hf _ s' _ hs'
  refine ⟨s'', ?_, hs'', m', by rw [hc', hc]; rfl⟩
  rw [StateT.run_bind, hx]
  exact hy

theorem next {x : OptionT ParseM α} {y : OptionT ReadM α} {f : α → OptionT ParseM β}
    {g : α → OptionT ReadM β} (h : Shadowing kept _ x.run y.run)
    (hf : ∀ a, Shadowing kept _ (f a).run (g a).run) :
    Shadowing kept _ (x >>= f).run (y >>= g).run := by
  rw [OptionT.run_bind, OptionT.run_bind]
  refine h.bind fun found => ?_
  cases found with
  | none => exact pure none
  | some a => exact hf a

theorem token {kind : TokenKind} {expected : Option String} {text : String}
    {find : Cursor → Except Unbalanced (Option String × Cursor)}
    (hexpected : kind = .keyword → expected = some text) (hfind : kind.FoundBy text find) :
    Shadowing kept _ (ParseM.token kind expected find).run (ReadM.token kind text).run := by
  intro s r h
  have hfits : s.cursor.mark.skipSpace.Fits s.cursor.source.text :=
    h.fits.takes s.cursor.mark.skipSpace_passes.takes
  have hfound := TokenKind.find?_meets h.mark.skipSpace kind text
  rw [ParseM.run_token, ReadM.run_token, hfind]
  cases hlookup : s.parser.memo.lookup? s.cursor.position kind expected s.cursor with
  | some found =>
    -- What is in the table is what the reader finds, whoever recorded it.
    obtain ⟨token, c⟩ := found
    obtain ⟨hsame, m, n, hentry, hmeets, rfl⟩ := h.truthful.lookup? h.fits hlookup
    have htoken : kind.find? text s.cursor.mark.skipSpace = some (token, m) := by
      cases kind with
      | keyword =>
        obtain rfl := hsame text (by rw [hexpected rfl]; rfl)
        exact hentry
      | identifier => exact hentry
      | typeName => exact hentry
    have hn := hmeets.fits (hfits.takes (TokenKind.passes_of_find? htoken).takes)
    rcases hfound with ⟨-, hnone⟩ | ⟨token', m', n', hread, hsome, hmeets'⟩
    · rw [htoken] at hnone
      cases hnone
    · rw [htoken] at hsome
      cases hsome
      rw [hread]
      exact ⟨_, rfl, h.moveTo (hmeets'.trans hmeets) hn, n, rfl⟩
  | none =>
    rcases hfound with ⟨hread, htoken⟩ | ⟨token, m, n, hread, htoken, hmeets⟩
    · rw [hread, htoken]
      exact ⟨_, rfl, h.moveTo h.mark.skipSpace hfits, _, rfl⟩
    · rw [hread, htoken]
      have hn := hfits.takes (TokenKind.passes_of_find? htoken).takes
      have hrecord := h.truthful.record h.fits (MemoTable.find?_of_find? htoken)
      exact ⟨_, rfl, ⟨hrecord, hn, h.filename, hmeets, h.recorded⟩, n, rfl⟩

theorem indent : Shadowing kept _ (Scanner.indent (m := ParseM)).run
    (Scanner.indent (m := ReadM)).run := by
  intro s r h
  rw [ParseM.run_indent, ReadM.run_indent, Cursor.matchIndent]
  rcases h.mark.indent? with ⟨hread, hindent⟩ | ⟨width, m, n, hread, hindent, hmeets⟩
  · rw [hread, hindent]
    exact ⟨s, rfl, h, _, rfl⟩
  · rw [hread, hindent]
    obtain ⟨tail, pad, -, -, -, -, -, hpass⟩ := Mark.indent?_eq_some_iff.1 hindent
    exact ⟨_, rfl, h.moveTo hmeets (h.fits.takes hpass.takes), n, rfl⟩

theorem attempt {x : OptionT ParseM α} {y : OptionT ReadM α} (h : Shadowing kept _ x.run y.run) :
    Shadowing kept _ (ParseM.transaction x).run (Scanner.attempt y).run := by
  intro s r hs
  obtain ⟨s', hx, hs', m, hc⟩ := h _ r hs.begin
  rw [ParseM.run_transaction, ReadM.run_attempt, hx]
  rcases hy : ReadM.run y.run r with ⟨_ | a, r'⟩ <;> rw [hy] at hs'
  · -- The rollback restores the mark that was saved, since the rule left it saved.
    refine ⟨{ s' with cursor := s.cursor }, by simp only [hc]; rfl,
      ⟨hs'.truthful, hs.fits, ?_, hs.mark, hs'.recorded⟩, _, rfl⟩
    rw [hs'.filename, hc]
    rfl
  · refine ⟨{ s' with cursor := s.cursor.moveTo m }, by simp only [hc]; rfl,
      ⟨hs'.truthful, ?_, ?_, ?_, hs'.recorded⟩, m, rfl⟩
    · have hfits := hs'.fits
      rwa [hc] at hfits
    · rw [hs'.filename, hc]
      rfl
    · have hmark := hs'.mark
      rwa [hc] at hmark

theorem report (kind : Diagnostic.Kind) :
    Shadowing kept _ (report (m := ParseM) kind).run (report (m := ReadM) kind).run := by
  intro s r h
  obtain ⟨new, hrecorded, hnew⟩ := h.recorded
  refine ⟨{ s with parser.recorded := s.parser.recorded ++ [⟨kind, s.cursor.location⟩] }, rfl,
    ⟨h.truthful, h.fits, h.filename, h.mark, new ++ [⟨kind, s.cursor.location⟩], ?_, ?_⟩, _, rfl⟩
  · rw [hrecorded, List.append_assoc]
  · exact List.rel_append hnew (.cons ⟨rfl, h.filename.symm, h.mark.offset⟩ .nil)

end Shadowing

/-- **A parser with a truthful table takes the steps of a plain reader.** -/
theorem ParseM.shadowing (kept : List Diagnostic) :
    Simulation (m := ParseM) (n := ReadM) (Shadowing kept) where
  pure := .pure
  bind := .bind
  keyword text := .next (.token (fun _ => rfl) (.keyword text)) fun _ => .pure _
  identifier := .token nofun .identifier
  typeName := .token nofun .typeName
  indent := .indent
  attempt := .attempt
  remaining s r h := by
    refine ⟨s, ?_, h, _, rfl⟩
    change Except.ok (s.cursor.mark.rest.length, s) = .ok (r.mark.rest.length, s)
    rw [h.mark.rest]
  report := .report

namespace Parser

/-- A rule on a parser with a truthful table ends where a plain reader ends that begins at the
cursor. -/
theorem run_of_truthful {parser : Parser} {c : Cursor} (hmemo : parser.memo.Truthful)
    (hc : c.mark.Fits c.source.text) {α : Type} {x : OptionT ParseM α} {y : OptionT ReadM α}
    (h : Shadowing parser.recorded _ x.run y.run) :
    ∃ after, parser.run c x = .ok ((ReadM.run y.run ⟨c.filename, c.mark, []⟩).1, after) ∧
      Shadows parser.recorded after (ReadM.run y.run ⟨c.filename, c.mark, []⟩).2 :=
  have ⟨after, hrun, hafter, _⟩ := h ⟨parser, c⟩ ⟨c.filename, c.mark, []⟩
    ⟨hmemo, hc, rfl, .refl c.mark, [], (List.append_nil _).symm, .nil⟩
  ⟨after, hrun, hafter⟩

theorem run_call_of_truthful {parser : Parser} {c : Cursor} (hmemo : parser.memo.Truthful)
    (hc : c.mark.Fits c.source.text) (call : Call) :
    ∃ after, parser.run c call.rule = .ok ((call.reading c).1, after) ∧
      Shadows parser.recorded after (call.reading c).2 :=
  run_of_truthful hmemo hc ((ParseM.shadowing parser.recorded).call call)

namespace Reached

/-- **The table of a parser that is reached is truthful.** -/
theorem truthful {parser : Parser} (h : parser.Reached) : parser.memo.Truthful := by
  induction h with
  | empty => exact .empty
  | call c call _ hc hrun ih =>
    obtain ⟨after, hrun', hafter⟩ := run_call_of_truthful ih hc call
    cases hrun'.symm.trans hrun
    exact hafter.truthful
  | record recorded _ ih => exact ih

/-- **A parser that is reached reads the text.**  Wherever its cursor is on its text, and whatever
lines and columns have been counted, a call does what a plain reader does from there. -/
theorem run_call {parser : Parser} (h : parser.Reached) {c : Cursor}
    (hc : c.mark.Fits c.source.text) (call : Call) :
    ∃ after, parser.run c call.rule = .ok ((call.reading c).1, after) ∧
      Shadows parser.recorded after (call.reading c).2 :=
  run_call_of_truthful h.truthful hc call

end Reached

end Parser

end Grammar

end DeclLang
