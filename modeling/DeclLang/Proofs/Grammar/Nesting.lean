import Mathlib.Logic.Function.Basic
import DeclLang.Proofs.Grammar.Memoization

/-!
# Transactions nest

A transaction is opened, something is done, and the transaction is closed.  Whatever was done, a
rollback restores the cursor and the transactions that were open before, and a commit leaves the
cursor where the same thing would have left it without the transaction
(`Workbench.transaction_law`).

What is done may be any `Workbench.Operation`s that close the transactions they open, to any depth:
movements of the cursor, transactions that are opened and closed by hand, transactions that are
closed at the end of their scope, and calls of the rules of any parser, which open and close
transactions on the same cursor in turn.

The reason is that nobody looks at the transactions that are open: what an action returns, and what
it does to its parser and to the mark of the cursor, is the same whatever they are, and they are the
same afterwards (`Framed`).  Every way to build a rule respects this (`framed`).  The induction over
a list of operations keeps the marks of the transactions that the list has opened apart from the
others below them (`Workbench.runAll_of_closes`).
-/

namespace DeclLang.Grammar

open Text

/-! ### Actions and open transactions -/

/-- The action returns.  It leaves the open transactions as they are, and they have no influence on
anything it does. -/
def Framed {α : Type} (x : ParseM α) : Prop :=
  ∀ (parser : Parser) (source : Source) (filename : String) (mark : Mark),
    ∃ a parser' mark', ∀ saved, StateT.run x ⟨parser, source, filename, mark, saved⟩ =
      .ok (a, ⟨parser', source, filename, mark', saved⟩)

namespace Framed

variable {α β : Type}

theorem pure (a : α) : Framed (pure a) := fun parser _ _ mark => ⟨a, parser, mark, fun _ => rfl⟩

theorem bind {x : ParseM α} {f : α → ParseM β} (h : Framed x) (hf : ∀ a, Framed (f a)) :
    Framed (x >>= f) := by
  intro parser source filename mark
  obtain ⟨a, parser', mark', hx⟩ := h parser source filename mark
  obtain ⟨b, parser'', mark'', hy⟩ := hf a parser' source filename mark'
  refine ⟨b, parser'', mark'', fun saved => ?_⟩
  rw [StateT.run_bind, hx]
  exact hy saved

theorem next {x : OptionT ParseM α} {f : α → OptionT ParseM β} (h : Framed x.run)
    (hf : ∀ a, Framed (f a).run) : Framed (x >>= f).run := by
  rw [OptionT.run_bind]
  refine h.bind fun found => ?_
  cases found with
  | none => exact pure none
  | some a => exact hf a

/-- Neither the table nor the text depends on the transactions. -/
theorem token {kind : TokenKind} {text : String}
    {find : Cursor → Except Unbalanced (Option String × Cursor)} (hfind : kind.FoundBy text find)
    (expected : Option String) :
    Framed (ParseM.token kind expected find).run := by
  intro parser source filename mark
  obtain ⟨found, hlookup⟩ : ∃ found : Option (String × Mark), ∀ saved,
      parser.memo.lookup? mark.place.offset kind expected ⟨source, filename, mark, saved⟩ =
        found.map fun found => (found.1, ⟨source, filename, found.2, saved⟩) :=
    ⟨(parser.memo.lookup? mark.place.offset kind expected ⟨source, filename, mark, []⟩).map
        fun found => (found.1, found.2.mark),
      fun saved => by simp [MemoTable.lookup?, Cursor.moveTo, Option.map_bind]⟩
  unfold TokenKind.FoundBy at hfind
  simp only [ParseM.run_token, Cursor.position, hlookup, hfind]
  cases found with
  | some found => exact ⟨some found.1, parser, found.2, fun _ => rfl⟩
  | none =>
    cases kind.find? text mark.skipSpace with
    | none => exact ⟨none, parser, mark.skipSpace, fun _ => rfl⟩
    | some found =>
      let memo := parser.memo.record mark.place.offset kind ⟨source, filename, found.2, []⟩ found.1
      exact ⟨some found.1, { parser with memo }, found.2, fun _ => rfl⟩

theorem indent : Framed (Scanner.indent (m := ParseM)).run := by
  intro parser source filename mark
  simp only [ParseM.run_indent, Cursor.matchIndent]
  cases mark.indent? with
  | none => exact ⟨none, parser, mark, fun _ => rfl⟩
  | some found => exact ⟨some found.1, parser, found.2, fun _ => rfl⟩

/-- The transaction that is closed is the one on top, whatever is below it. -/
theorem attempt {x : OptionT ParseM α} (h : Framed x.run) :
    Framed (ParseM.transaction x).run := by
  intro parser source filename mark
  obtain ⟨result, parser', mark', hx⟩ := h parser source filename mark
  have hbegin (saved : List Mark) : (Cursor.mk source filename mark saved).begin =
      ⟨source, filename, mark, mark :: saved⟩ := rfl
  simp only [ParseM.run_transaction, hbegin, hx]
  cases result with
  | none => exact ⟨none, parser', mark, fun _ => rfl⟩
  | some a => exact ⟨some a, parser', mark', fun _ => rfl⟩

theorem report (kind : Diagnostic.Kind) : Framed (report (m := ParseM) kind).run :=
  fun parser _ filename mark =>
    ⟨some (), { parser with recorded := parser.recorded ++ [⟨kind, ⟨filename, mark.place⟩⟩] },
      mark, fun _ => rfl⟩

end Framed

/-- **No rule looks at the open transactions.** -/
theorem framed : Simulation (m := ParseM) (n := ParseM) (fun _ x y => x = y ∧ Framed x) where
  pure a := ⟨rfl, .pure a⟩
  bind h hf := ⟨by rw [h.1, funext fun a => (hf a).1], h.2.bind fun a => (hf a).2⟩
  keyword text := ⟨rfl, .next (.token (.keyword text) _) fun _ => .pure _⟩
  identifier := ⟨rfl, .token .identifier none⟩
  typeName := ⟨rfl, .token .typeName none⟩
  indent := ⟨rfl, .indent⟩
  attempt h := ⟨congrArg (fun z => (Scanner.attempt z).run) h.1, h.2.attempt⟩
  remaining := ⟨rfl, fun parser _ _ mark => ⟨mark.rest.length, parser, mark, fun _ => rfl⟩⟩
  report kind := ⟨rfl, .report kind⟩

/-! ### Operations -/

/-- A movement of a cursor. -/
inductive Movement
  /-- One character is read. -/
  | read
  /-- The blanks are passed. -/
  | skipSpace
  /-- An indentation is looked for. -/
  | readIndent
  /-- A given text is looked for. -/
  | readKeyword (text : String)
  /-- A word is looked for. -/
  | readWord (first more : Char → Bool)

/-- The cursor after the movement.  What is looked for is looked for in a transaction. -/
def Movement.apply (c : Cursor) : Movement → Except Unbalanced Cursor
  | read => .ok c.read.2
  | skipSpace => .ok c.skipSpace
  | readIndent => c.readIndent.map Prod.snd
  | readKeyword text => (c.readKeyword text).map Prod.snd
  | readWord first more => (c.readWord first more).map Prod.snd

/-- The mark alone decides where a movement goes, and its own transaction is closed. -/
theorem Movement.apply_mk (movement : Movement) (source : Source) (filename : String)
    (mark : Mark) : ∃ mark', ∀ saved,
      movement.apply ⟨source, filename, mark, saved⟩ = .ok ⟨source, filename, mark', saved⟩ := by
  cases movement with
  | read =>
    simp only [apply, Cursor.read]
    cases mark.read? with
    | none => exact ⟨mark, fun _ => rfl⟩
    | some found => exact ⟨found.2, fun _ => rfl⟩
  | skipSpace => exact ⟨mark.skipSpace, fun _ => rfl⟩
  | readIndent =>
    simp only [apply, Cursor.readIndent_eq, Cursor.matchIndent]
    cases mark.indent? with
    | none => exact ⟨mark, fun _ => rfl⟩
    | some found => exact ⟨found.2, fun _ => rfl⟩
  | readKeyword text =>
    simp only [apply, Cursor.readKeyword_eq, Cursor.matchKeyword, Cursor.skipSpace, Cursor.moveTo]
    cases mark.skipSpace.literal? text.toList with
    | none => exact ⟨mark.skipSpace, fun _ => rfl⟩
    | some m => exact ⟨m, fun _ => rfl⟩
  | readWord first more =>
    simp only [apply, Cursor.readWord_eq, Cursor.matchWord, Cursor.skipSpace, Cursor.moveTo]
    cases mark.skipSpace.word? first more with
    | none => exact ⟨mark.skipSpace, fun _ => rfl⟩
    | some found => exact ⟨found.2, fun _ => rfl⟩

/-- A cursor, and the parsers that are put to work on it. -/
structure Workbench where
  /-- The cursor. -/
  cursor : Cursor
  /-- The parsers. -/
  parsers : Nat → Parser

namespace Workbench

/-- What can be done at a workbench. -/
inductive Operation
  /-- The cursor is moved. -/
  | move (movement : Movement)
  /-- A rule of one of the parsers is called. -/
  | call (i : Nat) (call : Call)
  /-- A transaction is opened. -/
  | begin
  /-- The transaction opened last is closed, and the cursor stays. -/
  | commit
  /-- The transaction opened last is closed, and the cursor goes back. -/
  | rollback
  /-- A transaction is opened, other operations are done, and it is closed. -/
  | transaction (body : List Operation) (commits : Bool)

mutual

/-- The workbench after an operation. -/
def Operation.run : Operation → Workbench → Except Unbalanced Workbench
  | .move movement, b => do return { b with cursor := ← movement.apply b.cursor }
  | .call i call, b => do
    let (_, after) ← (b.parsers i).run b.cursor call.rule
    return ⟨after.cursor, Function.update b.parsers i after.parser⟩
  | .begin, b => .ok { b with cursor := b.cursor.begin }
  | .commit, b => do return { b with cursor := ← b.cursor.commit }
  | .rollback, b => do return { b with cursor := ← b.cursor.rollback }
  | .transaction body commits, b => do
    let b ← runAll body { b with cursor := b.cursor.begin }
    return { b with cursor := ← if commits then b.cursor.commit else b.cursor.rollback }

/-- The workbench after operations that are done one after another. -/
def runAll : List Operation → Workbench → Except Unbalanced Workbench
  | [], b => .ok b
  | o :: os, b => do runAll os (← o.run b)

end

mutual

/-- What is done inside of a transaction with a scope closes what it opens. -/
def Operation.closesInside : Operation → Bool
  | .transaction body _ => closes 0 body
  | _ => true

/-- The operations close this many transactions that are open, and those that they open themselves,
but no others; and so it is inside of every transaction with a scope. -/
def closes : Nat → List Operation → Bool
  | depth, [] => depth == 0
  | depth, o :: os => o.closesInside && match o, depth with
    | .begin, depth => closes (depth + 1) os
    | .commit, 0 => false
    | .commit, depth + 1 => closes depth os
    | .rollback, 0 => false
    | .rollback, depth + 1 => closes depth os
    | _, depth => closes depth os

end

/-- Every transaction that is opened is closed, and no other. -/
def balanced (os : List Operation) : Bool := closes 0 os

/-! ### Runs -/

theorem runAll_concat (os : List Operation) (o : Operation) (b : Workbench) :
    runAll (os ++ [o]) b = runAll os b >>= o.run := by
  induction os generalizing b with
  | nil =>
    simp only [List.nil_append, runAll]
    exact bind_pure (o.run b)
  | cons o' os ih =>
    simp only [List.cons_append, runAll, bind_assoc, ih]

/-- A transaction with a scope is opened and closed as it is done by hand. -/
theorem run_transaction (os : List Operation) (commits : Bool) (b : Workbench) :
    (Operation.transaction os commits).run b =
      runAll (.begin :: os ++ [if commits then .commit else .rollback]) b := by
  have hopen : runAll (.begin :: os) b = runAll os { b with cursor := b.cursor.begin } := rfl
  rw [runAll_concat, hopen]
  cases commits <;> rfl

/-- What is done leaves the open transactions as they are, and they have no influence on it. -/
def Steady (f : Workbench → Except Unbalanced Workbench) : Prop :=
  ∀ (source : Source) (filename : String) (mark : Mark) (parsers : Nat → Parser),
    ∃ mark' parsers', ∀ saved, f ⟨⟨source, filename, mark, saved⟩, parsers⟩ =
      .ok ⟨⟨source, filename, mark', saved⟩, parsers'⟩

namespace Steady

theorem move (movement : Movement) : Steady (Operation.move movement).run := by
  intro source filename mark parsers
  obtain ⟨mark', happly⟩ := movement.apply_mk source filename mark
  refine ⟨mark', parsers, fun saved => ?_⟩
  rw [Operation.run, happly]
  rfl

theorem call (i : Nat) (call : Call) : Steady (Operation.call i call).run := by
  intro source filename mark parsers
  obtain ⟨result, parser, mark', hrun⟩ := (framed.call call).2 (parsers i) source filename mark
  refine ⟨mark', Function.update parsers i parser, fun saved => ?_⟩
  rw [Operation.run, Parser.run, hrun]
  rfl

/-- The transaction that is closed is the one that was opened. -/
theorem transaction {body : List Operation} (h : Steady (runAll body)) (commits : Bool) :
    Steady (Operation.transaction body commits).run := by
  intro source filename mark parsers
  obtain ⟨mark', parsers', hbody⟩ := h source filename mark parsers
  refine ⟨if commits then mark' else mark, parsers', fun saved => ?_⟩
  have hbegin : (Cursor.mk source filename mark saved).begin =
      ⟨source, filename, mark, mark :: saved⟩ := rfl
  simp only [Operation.run, hbegin, hbody]
  cases commits <;> rfl

end Steady

/-- The marks of the transactions that are closed come first; below them there may be others. -/
theorem runAll_of_closes (os : List Operation) {opened : List Mark}
    (h : closes opened.length os = true) (source : Source) (filename : String) (mark : Mark)
    (parsers : Nat → Parser) : ∃ mark' parsers', ∀ saved,
      runAll os ⟨⟨source, filename, mark, opened ++ saved⟩, parsers⟩ =
        .ok ⟨⟨source, filename, mark', saved⟩, parsers'⟩ := by
  match os with
  | [] =>
    obtain rfl : opened = [] := by simpa [closes] using h
    exact ⟨mark, parsers, fun _ => rfl⟩
  | o :: os =>
    simp only [closes, Bool.and_eq_true] at h
    obtain ⟨hinside, h⟩ := h
    -- An operation that is steady leaves it to the others to close what is open.
    have of_steady (ho : Steady o.run) (hos : closes opened.length os = true) :
        ∃ mark' parsers', ∀ saved,
          runAll (o :: os) ⟨⟨source, filename, mark, opened ++ saved⟩, parsers⟩ =
            .ok ⟨⟨source, filename, mark', saved⟩, parsers'⟩ := by
      obtain ⟨mark₁, parsers₁, hrun⟩ := ho source filename mark parsers
      obtain ⟨mark₂, parsers₂, hruns⟩ := runAll_of_closes os hos source filename mark₁ parsers₁
      refine ⟨mark₂, parsers₂, fun saved => ?_⟩
      rw [runAll, hrun]
      exact hruns saved
    cases o with
    | move movement => exact of_steady (.move movement) h
    | call i call => exact of_steady (.call i call) h
    | begin => exact @runAll_of_closes os (mark :: opened) h source filename mark parsers
    | commit =>
      cases opened with
      | nil => cases h
      | cons m opened => exact runAll_of_closes os h source filename mark parsers
    | rollback =>
      cases opened with
      | nil => cases h
      | cons m opened => exact runAll_of_closes os h source filename m parsers
    | transaction body commits =>
      exact of_steady (.transaction (@runAll_of_closes body [] hinside) commits) h

/-- **Operations that are balanced are steady.** -/
theorem steady_of_balanced {os : List Operation} (h : balanced os = true) : Steady (runAll os) :=
  @runAll_of_closes os [] h

/-- **A transaction is a snapshot.**  Let a cursor stand anywhere, with any transactions open, and
let any operations be done that are balanced.

They return, and leave the transactions that were open.  If a transaction is opened before them and
rolled back behind them, then the cursor is what it was before, and the transactions open on it are
those that were; if it is committed, then all is as it is without it.  A transaction with a scope is
the first if it is dropped and the second if it is committed. -/
theorem transaction_law {os : List Operation} (h : balanced os = true) (b : Workbench) :
    ∃ after, runAll os b = .ok after ∧ after.cursor = b.cursor.moveTo after.cursor.mark ∧
      runAll (.begin :: os ++ [.rollback]) b = .ok { after with cursor := b.cursor } ∧
      runAll (.begin :: os ++ [.commit]) b = .ok after ∧
      (Operation.transaction os false).run b = .ok { after with cursor := b.cursor } ∧
      (Operation.transaction os true).run b = .ok after := by
  obtain ⟨⟨source, filename, mark, saved⟩, parsers⟩ := b
  obtain ⟨mark', parsers', hrun⟩ := steady_of_balanced h source filename mark parsers
  -- The transaction that is opened is one more below those that the operations close.
  have hopen : runAll (.begin :: os) ⟨⟨source, filename, mark, saved⟩, parsers⟩ =
      .ok ⟨⟨source, filename, mark', mark :: saved⟩, parsers'⟩ := hrun (mark :: saved)
  refine ⟨_, hrun saved, rfl, ?_, ?_, ?_, ?_⟩
  · rw [runAll_concat, hopen]
    rfl
  · rw [runAll_concat, hopen]
    rfl
  · rw [run_transaction, runAll_concat, hopen]
    rfl
  · rw [run_transaction, runAll_concat, hopen]
    rfl

/-- A signature is read in a transaction that is committed, and behind it a deconstructor by
another parser, in a transaction with a scope inside of the first.  Another transaction is open all
along. -/
theorem transaction_law_two_parsers : ∃ os b, os = [.begin, .call 0 .signature,
      .transaction [.begin, .move .read, .rollback, .call 1 .deconstructor] true, .commit] ∧
    b = ⟨(Cursor.start ⟨0, " f ::(A b)"⟩ "f").begin, fun _ => .empty⟩ ∧ balanced os = true ∧
    (runAll os b).toOption.map (fun after => after.cursor.position) = some 10 ∧
    ∃ after, runAll os b = .ok after ∧ after.cursor = b.cursor.moveTo after.cursor.mark ∧
      runAll (.begin :: os ++ [.rollback]) b = .ok { after with cursor := b.cursor } ∧
      runAll (.begin :: os ++ [.commit]) b = .ok after ∧
      (Operation.transaction os false).run b = .ok { after with cursor := b.cursor } ∧
      (Operation.transaction os true).run b = .ok after :=
  ⟨_, _, rfl, rfl, by decide, by decide +kernel, transaction_law (by decide) _⟩

end Workbench

end DeclLang.Grammar
