import Mathlib.Logic.Relation
import Mathlib.Logic.Function.Basic
import DeclLang.Proofs.Grammar.Transaction
import DeclLang.Proofs.Text.Boundary

/-!
# Positions that are handed around

An `Ensemble` is any number of cursors, memo tables and parsers, with nothing to keep one from
being used with another.  Its steps are the operations of a cursor, whether its transactions are
balanced or not; the lookup of an entry of a table, under any position and kind, through any cursor;
the recording of the mark of a cursor in a table, likewise; and what parsers do to their
diagnostics.

A mark gets from one cursor to another through the tables, and stays on its text on the way: a
table answers only to cursors on the source it is bound to, and forgets its entries before it is
bound to another one (`MemoTable.Fits`).  Sources are told apart, not texts.

The call of a rule is a run of such steps (`traces`).  So what holds of every ensemble also holds
at every moment of a call (`Ensemble.fits_of_reachable`), even if an entry that was recorded by hand
leads the rule back to where it began.
-/

namespace DeclLang.Grammar

open Text

/-! ### Tables -/

namespace MemoTable

variable {t : MemoTable} {c c' : Cursor} {position : Nat} {kind : TokenKind}

/-- The marks of the table fit the text of the source it is bound to. -/
def Fits (t : MemoTable) : Prop :=
  ∀ (key : Nat) (memo : Memo), t.entries[key]? = some memo →
    ∃ source, t.source = some source ∧ memo.mark.Fits source.text

theorem source_of_lookup? {expected : Option String} {token : String}
    (h : t.lookup? position kind expected c = some (token, c')) : c'.source = c.source := by
  obtain ⟨-, memo, -, -, -, rfl⟩ := lookup?_eq_some_iff.1 h
  rfl

namespace Fits

theorem empty : MemoTable.empty.Fits := by
  intro key memo hentry
  simp [MemoTable.empty] at hentry

theorem lookup? (h : t.Fits) (hc : c.Fits) {expected : Option String} {token : String}
    (hlookup : t.lookup? position kind expected c = some (token, c')) : c'.Fits := by
  obtain ⟨hsource, memo, hentry, -, -, rfl⟩ := lookup?_eq_some_iff.1 hlookup
  obtain ⟨source, hbound, hmemo⟩ := h _ memo hentry
  obtain rfl : c.source = source := Option.some.inj (hsource.symm.trans hbound)
  exact hc.moveTo hmemo

theorem record (h : t.Fits) (hc : c.Fits) (token : String) :
    (t.record position kind c token).Fits := by
  intro key memo hentry
  refine ⟨c.source, rfl, ?_⟩
  rcases getElem?_record hentry with ⟨-, rfl⟩ | ⟨hsource, hentry⟩
  · exact hc _ List.mem_cons_self
  · obtain ⟨source, hbound, hmemo⟩ := h key memo hentry
    obtain rfl : c.source = source := Option.some.inj (hsource.symm.trans hbound)
    exact hmemo

end Fits

end MemoTable

/-! ### Ensembles -/

/-- Cursors, tables and parsers without their tables. -/
structure Ensemble where
  /-- The cursors. -/
  cursors : Nat → Cursor
  /-- The tables. -/
  tables : Nat → MemoTable
  /-- The diagnostics of each parser. -/
  recorded : Nat → List Diagnostic

namespace Ensemble

/-- Each cursor at the start of a source, and nothing recorded. -/
def start (files : Nat → Source × String) : Ensemble :=
  ⟨fun i => .start (files i).1 (files i).2, fun _ => .empty, fun _ => []⟩

/-- A parser, with one of the tables, at work on one of the cursors. -/
def parsing (e : Ensemble) (p t i : Nat) : Parsing :=
  ⟨⟨e.tables t, e.recorded p⟩, e.cursors i⟩

/-- The ensemble after such a parser has worked. -/
def put (e : Ensemble) (p t i : Nat) (s : Parsing) : Ensemble where
  cursors := Function.update e.cursors i s.cursor
  tables := Function.update e.tables t s.parser.memo
  recorded := Function.update e.recorded p s.parser.recorded

/-- One step of an ensemble. -/
inductive Step (e : Ensemble) : Ensemble → Prop
  | operate (i : Nat) {c : Cursor} : (e.cursors i).Operation c →
      Step e { e with cursors := Function.update e.cursors i c }
  | lookup (t i position : Nat) (kind : TokenKind) (expected : Option String) {token : String}
      {c : Cursor} : (e.tables t).lookup? position kind expected (e.cursors i) = some (token, c) →
      Step e { e with cursors := Function.update e.cursors i c }
  | record (t i position : Nat) (kind : TokenKind) (token : String) :
      Step e { e with tables :=
        Function.update e.tables t ((e.tables t).record position kind (e.cursors i) token) }
  | report (p : Nat) (recorded : List Diagnostic) :
      Step e { e with recorded := Function.update e.recorded p recorded }

/-- The ensemble can come about from another one. -/
def Reachable (e e' : Ensemble) : Prop := Relation.ReflTransGen Step e e'

namespace Reachable

variable {e e' e'' : Ensemble}

theorem single (h : e.Step e') : e.Reachable e' := Relation.ReflTransGen.single h

theorem trans (h : e.Reachable e') (h' : e'.Reachable e'') : e.Reachable e'' :=
  Relation.ReflTransGen.trans h h'

end Reachable

variable {e e' : Ensemble}

theorem parsing_put (p t i : Nat) (s : Parsing) : (e.put p t i s).parsing p t i = s := by
  simp [parsing, put]

theorem put_parsing (p t i : Nat) : e.put p t i (e.parsing p t i) = e := by
  simp [parsing, put]

theorem put_put (p t i : Nat) (s s' : Parsing) :
    (e.put p t i s).put p t i s' = e.put p t i s' := by
  simp [put]

theorem put_cursor (p t i : Nat) (c : Cursor) :
    e.put p t i { e.parsing p t i with cursor := c } =
      { e with cursors := Function.update e.cursors i c } := by
  simp [parsing, put]

/-! ### Calls -/

/-- What the action does is a run of steps. -/
def Traced {α : Type} (x : ParseM α) : Prop :=
  ∀ e p t i a s, StateT.run x (parsing e p t i) = .ok (a, s) → e.Reachable (e.put p t i s)

namespace Traced

variable {α β : Type}

/-- An action that looks and does not touch. -/
theorem look {x : ParseM α}
    (h : ∀ s a s', StateT.run x s = .ok (a, s') → s' = s) : Traced x := by
  intro e p t i a s hrun
  rw [h _ _ _ hrun, put_parsing]
  exact .refl

theorem pure (a : α) : Traced (pure a) := look fun _ _ _ h => by cases h; rfl

theorem bind {x : ParseM α} {f : α → ParseM β} (h : Traced x) (hf : ∀ a, Traced (f a)) :
    Traced (x >>= f) := by
  intro e p t i b s hrun
  rw [StateT.run_bind] at hrun
  rcases hx : StateT.run x (e.parsing p t i) with fault | ⟨a, s'⟩ <;> rw [hx] at hrun
  · cases hrun
  have hy := hf a (e.put p t i s') p t i b s (by rw [parsing_put]; exact hrun)
  rw [put_put] at hy
  exact (h e p t i a s' hx).trans hy

theorem next {x : OptionT ParseM α} {f : α → OptionT ParseM β} (h : Traced x.run)
    (hf : ∀ a, Traced (f a).run) : Traced (x >>= f).run := by
  rw [OptionT.run_bind]
  refine h.bind fun found => ?_
  cases found with
  | none => exact pure none
  | some a => exact hf a

/-- An action that is an operation of the cursor. -/
theorem operate {x : ParseM α} (h : ∀ s a s', StateT.run x s = .ok (a, s') →
    ∃ c, s.cursor.Operation c ∧ s' = { s with cursor := c }) : Traced x := by
  intro e p t i a s hrun
  obtain ⟨c, hop, rfl⟩ := h _ _ _ hrun
  rw [put_cursor]
  exact .single (.operate i hop)

/-- A token is looked up, or else it is looked for and recorded. -/
theorem token {kind : TokenKind} {expected : Option String}
    {find : Cursor → Except Unbalanced (Option String × Cursor)}
    (hfind : ∀ c : Cursor, ∃ found c', find c = .ok (found, c') ∧ c.Forward c') :
    Traced (ParseM.token kind expected find).run := by
  intro e p t i a s hrun
  rw [ParseM.run_token] at hrun
  split at hrun
  case h_1 token c hlookup =>
    cases hrun
    rw [put_cursor]
    exact .single (.lookup t i _ kind expected hlookup)
  case h_2 =>
    obtain ⟨found, c, hfound, hforward⟩ := hfind (e.cursors i)
    have hmove := Step.operate i (.forward hforward)
    have hcursor : (e.parsing p t i).cursor = e.cursors i := rfl
    rw [hcursor, hfound] at hrun
    cases found with
    | some token =>
      cases hrun
      have hrecord := Step.record t i (e.cursors i).position kind token
        (e := { e with cursors := Function.update e.cursors i c })
      have hsteps := (Reachable.single hmove).trans (.single hrecord)
      simpa [put, parsing, Cursor.position] using hsteps
    | none =>
      cases hrun
      rw [put_cursor]
      exact .single hmove

theorem keyword (text : String) : Traced (Scanner.keyword (m := ParseM) text).run := by
  refine next (token fun c => ?_) fun _ => pure _
  have hread := c.readKeyword_eq text
  rw [hread]
  exact ⟨_, _, rfl, .readKeyword hread⟩

theorem identifier : Traced (Scanner.identifier (m := ParseM)).run :=
  token fun c =>
    have hread := c.readWord_eq isVariableStart isNameChar
    ⟨_, _, hread, .readWord hread⟩

theorem typeName : Traced (Scanner.typeName (m := ParseM)).run :=
  token fun c =>
    have hread := c.readWord_eq isTypeStart isNameChar
    ⟨_, _, hread, .readWord hread⟩

theorem indent : Traced (Scanner.indent (m := ParseM)).run := by
  refine operate fun s a s' hrun => ?_
  rw [ParseM.run_indent] at hrun
  cases hrun
  exact ⟨_, .forward (.readIndent s.cursor.readIndent_eq), rfl⟩

theorem close {f : Cursor → Except Unbalanced Cursor}
    (hf : ∀ c : Cursor, c.Operation ((f c).toOption.getD c)) : Traced (ParseM.close f) := by
  refine operate fun s a s' hrun => ?_
  have hop := hf s.cursor
  rw [ParseM.run_close] at hrun
  cases hclose : f s.cursor <;> rw [hclose] at hrun hop <;> cases hrun
  exact ⟨_, hop, rfl⟩

theorem attempt {x : OptionT ParseM α} (h : Traced x.run) :
    Traced (ParseM.transaction x).run := by
  refine bind (operate fun s a s' hrun => ?_) fun _ => h.bind fun result => bind ?_ fun _ => pure _
  · cases hrun
    exact ⟨_, .begin, rfl⟩
  · cases result with
    | none => exact close fun _ => .rollback
    | some a => exact close fun _ => .commit

theorem report (kind : Diagnostic.Kind) : Traced (report (m := ParseM) kind).run := by
  intro e p t i a s hrun
  cases hrun
  simpa [put, parsing] using Reachable.single (Step.report p _)

end Traced

/-- **The call of a rule is a run of steps.** -/
theorem traces : Simulation (m := ParseM) (n := ParseM) (fun _ x y => x = y ∧ Traced x) where
  pure a := ⟨rfl, .pure a⟩
  bind h hf := ⟨by rw [h.1, funext fun a => (hf a).1], h.2.bind fun a => (hf a).2⟩
  keyword text := ⟨rfl, .keyword text⟩
  identifier := ⟨rfl, .identifier⟩
  typeName := ⟨rfl, .typeName⟩
  indent := ⟨rfl, .indent⟩
  attempt h := ⟨congrArg (fun z => (Scanner.attempt z).run) h.1, h.2.attempt⟩
  remaining := ⟨rfl, .look fun s a s' hrun => by cases hrun; rfl⟩
  report kind := ⟨rfl, .report kind⟩

/-! ### Positions -/

/-- Each cursor and each table fits its text, and the cursors are on the sources they were on. -/
structure Fits (files : Nat → Source × String) (e : Ensemble) : Prop where
  source (i : Nat) : (e.cursors i).source = (files i).1
  cursor (i : Nat) : (e.cursors i).Fits
  table (t : Nat) : (e.tables t).Fits

namespace Fits

variable {files : Nat → Source × String}

theorem start (files : Nat → Source × String) : (Ensemble.start files).Fits files :=
  ⟨fun _ => rfl, fun i => .start (files i).1 (files i).2, fun _ => .empty⟩

theorem setCursor (h : e.Fits files) {i : Nat} {c : Cursor}
    (hsource : c.source = (e.cursors i).source) (hc : c.Fits) :
    Fits files { e with cursors := Function.update e.cursors i c } := by
  refine ⟨fun j => ?_, fun j => ?_, h.table⟩ <;> rcases eq_or_ne j i with rfl | hj
  · simpa [hsource] using h.source j
  · simpa [hj] using h.source j
  · simpa using hc
  · simpa [hj] using h.cursor j

theorem step (h : e.Fits files) (hstep : e.Step e') : e'.Fits files := by
  cases hstep with
  | operate i hop => exact h.setCursor hop.source_eq ((h.cursor i).operation hop)
  | lookup t i position kind expected hlookup =>
    exact h.setCursor (MemoTable.source_of_lookup? hlookup)
      ((h.table t).lookup? (h.cursor i) hlookup)
  | record t i position kind token =>
    refine ⟨h.source, h.cursor, fun u => ?_⟩
    rcases eq_or_ne u t with rfl | hu
    · simpa using (h.table u).record (h.cursor i) token
    · simpa [hu] using h.table u
  | report p recorded => exact ⟨h.source, h.cursor, h.table⟩

theorem of_reachable (h : (Ensemble.start files).Reachable e) : e.Fits files := by
  induction h with
  | refl => exact .start files
  | tail _ hstep ih => exact ih.step hstep

end Fits

/-- **No position is off its text.**  After any steps of an ensemble, every cursor is at a position
of the text it was made for, and so are the transactions open on it; every mark in a table is at a
position of the text that the table is bound to.  So what is left of the text can be sliced off, and
what an operation takes is the beginning of it.  The call of a rule is a run of such steps. -/
theorem fits_of_reachable {files : Nat → Source × String} {e : Ensemble}
    (h : (start files).Reachable e) :
    (∀ i, ∀ m ∈ (e.cursors i).mark :: (e.cursors i).saved, m.Fits (files i).1.text) ∧
    (∀ t (key : Nat) (memo : Memo), (e.tables t).entries[key]? = some memo →
      ∃ source, (e.tables t).source = some source ∧ memo.mark.Fits source.text) ∧
    (∀ i c, (e.cursors i).Forward c → ∃ (p : (files i).1.text.Pos) (taken : List Char),
      p.offset.byteIdx = (e.cursors i).position ∧
      ((files i).1.text.sliceFrom p).copy.toList = taken ++ c.mark.rest ∧
      c.position = (e.cursors i).position + (String.ofList taken).utf8ByteSize) ∧
    ∀ p t i call, ∃ result after,
      (e.parsing p t i).parser.run (e.cursors i) (Call.rule call) = .ok (result, after) ∧
        e.Reachable (e.put p t i after) := by
  have hfits := Fits.of_reachable h
  have hcursor (i : Nat) : ∀ m ∈ (e.cursors i).mark :: (e.cursors i).saved,
      m.Fits (files i).1.text := by
    rw [← hfits.source i]
    exact hfits.cursor i
  refine ⟨hcursor, hfits.table, fun i c hforward => ?_, fun p t i call => ?_⟩
  · obtain ⟨taken, ⟨hrest, hoffset⟩, -⟩ := hforward.takes
    obtain ⟨pos, hpos, hslice⟩ := hcursor i _ List.mem_cons_self
    exact ⟨pos, taken, hpos, hslice.trans hrest, hoffset⟩
  · obtain ⟨result, after, hrun, -⟩ := (balanced.call call).2 (e.parsing p t i)
    exact ⟨result, after, hrun, (traces.call call).2 e p t i result after hrun⟩

/-- Two sources with the same text, the first one under two cursors.  The first cursor reads over
the line feed and closes a transaction that is not open; its mark gets to the second cursor by way
of a table, under a position that the text does not have.  Then the third cursor rebinds the
table. -/
theorem fits_of_reachable_shared_table :
    ∃ e, (start fun i => (⟨i / 2, "é\n"⟩, "f")).Reachable e ∧ (e.cursors 1).position = 3 ∧
      (e.tables 0).source = some ⟨1, "é\n"⟩ ∧
      (∀ i, ∀ m ∈ (e.cursors i).mark :: (e.cursors i).saved, m.Fits "é\n") ∧
      ∃ result after,
        (e.parsing 0 0 1).parser.run (e.cursors 1) Call.signature.rule = .ok (result, after) ∧
          e.Reachable (e.put 0 0 1 after) := by
  have h := (Reachable.single (.operate (e := start fun i => (⟨i / 2, "é\n"⟩, "f")) 0
    (.forward .read))).trans
    ((Reachable.single (.operate 0 (.forward .read))).trans
    ((Reachable.single (.operate 0 .commit)).trans
    ((Reachable.single (.record 0 0 7 .identifier "x")).trans
    ((Reachable.single (.lookup 0 1 7 .identifier none rfl)).trans
    (.single (.record 0 2 7 .identifier "y"))))))
  have hfits := fits_of_reachable h
  exact ⟨_, h, rfl, rfl, hfits.1, hfits.2.2.2 0 0 1 .signature⟩

end Ensemble

end DeclLang.Grammar
