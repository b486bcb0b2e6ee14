import DeclLang.Proofs.Grammar.Memoization

/-!
# Rules are transactions

A rule opens transactions on the cursor, one inside another, and leaves them on many ways: it
returns, a token is missing, a form inside it was given up, an entry of the memo table has moved
the cursor.  Whatever the way, the transaction that is closed is the one that was opened last, so a
rule cannot be told from an action that changes nothing of its cursor but the mark (`Balanced`),
and a transaction cannot be told from a snapshot of the cursor that is restored (`SnapshotM`).
Every way to build a rule respects this (`balanced`), and nothing is assumed about the cursor or
about what the memo table holds.

A call that fails goes back (`Parser.run_call_balanced`): a form is a snapshot as a whole, and goes
back to where it began, while a token stays behind the blanks (`Call.leaves`).
-/

namespace DeclLang

theorem Text.Cursor.skipSpace_skipSpace (c : Text.Cursor) :
    c.skipSpace.skipSpace = c.skipSpace := by
  rw [skipSpace, skipSpace, moveTo, moveTo, Mark.skipSpace_skipSpace]

namespace Grammar

open Text

/-! ### What an action keeps -/

/-- Of the cursor nothing has changed but the mark, and no diagnostic was taken back. -/
structure Keeps (s s' : Parsing) : Prop where
  cursor : ∃ m, s'.cursor = s.cursor.moveTo m
  recorded : s.parser.recorded <+: s'.parser.recorded

namespace Keeps

variable {s s' s'' : Parsing}

theorem refl (s : Parsing) : Keeps s s := ⟨⟨s.cursor.mark, rfl⟩, List.prefix_rfl⟩

theorem trans (h : Keeps s s') (h' : Keeps s' s'') : Keeps s s'' := by
  obtain ⟨m, hm⟩ := h.cursor
  obtain ⟨m', hm'⟩ := h'.cursor
  exact ⟨⟨m', by rw [hm', hm]; rfl⟩, h.recorded.trans h'.recorded⟩

end Keeps

/-- The action returns, and closes the transactions that it opens and no other. -/
def Balanced {α : Type} (x : ParseM α) : Prop :=
  ∀ s, ∃ a s', StateT.run x s = .ok (a, s') ∧ Keeps s s'

namespace Balanced

variable {α β : Type}

/-- An action that looks and does not touch. -/
theorem look {x : ParseM α} (h : ∀ s, ∃ a, StateT.run x s = .ok (a, s)) : Balanced x := fun s =>
  have ⟨a, hx⟩ := h s
  ⟨a, s, hx, .refl s⟩

theorem pure (a : α) : Balanced (pure a) := look fun _ => ⟨a, rfl⟩

theorem bind {x : ParseM α} {f : α → ParseM β} (h : Balanced x) (hf : ∀ a, Balanced (f a)) :
    Balanced (x >>= f) := by
  intro s
  obtain ⟨a, s', hx, hs⟩ := h s
  obtain ⟨b, s'', hy, hs'⟩ := hf a s'
  refine ⟨b, s'', ?_, hs.trans hs'⟩
  rw [StateT.run_bind, hx]
  exact hy

theorem next {x : OptionT ParseM α} {f : α → OptionT ParseM β} (h : Balanced x.run)
    (hf : ∀ a, Balanced (f a).run) : Balanced (x >>= f).run := by
  rw [OptionT.run_bind]
  refine h.bind fun found => ?_
  cases found with
  | none => exact pure none
  | some a => exact hf a

/-- A token moves the cursor, whether it comes from the table or from the text. -/
theorem token {kind : TokenKind} {text : String}
    {find : Cursor → Except Unbalanced (Option String × Cursor)} (hfind : kind.FoundBy text find)
    (expected : Option String) :
    Balanced (ParseM.token kind expected find).run := by
  intro s
  rw [ParseM.run_token, hfind]
  cases hlookup : s.parser.memo.lookup? s.cursor.position kind expected s.cursor with
  | some found =>
    obtain ⟨token, c⟩ := found
    obtain ⟨-, memo, -, -, -, rfl⟩ := MemoTable.lookup?_eq_some_iff.1 hlookup
    exact ⟨_, _, rfl, ⟨memo.mark, rfl⟩, List.prefix_rfl⟩
  | none =>
    cases kind.find? text s.cursor.mark.skipSpace with
    | none => exact ⟨_, _, rfl, ⟨s.cursor.mark.skipSpace, rfl⟩, List.prefix_rfl⟩
    | some found => exact ⟨_, _, rfl, ⟨found.2, rfl⟩, List.prefix_rfl⟩

theorem keyword (text : String) : Balanced (Scanner.keyword (m := ParseM) text).run :=
  next (token (.keyword text) _) fun _ => pure _

theorem identifier : Balanced (Scanner.identifier (m := ParseM)).run := token .identifier none

theorem typeName : Balanced (Scanner.typeName (m := ParseM)).run := token .typeName none

theorem indent : Balanced (Scanner.indent (m := ParseM)).run := by
  intro s
  rw [ParseM.run_indent, Cursor.matchIndent]
  cases s.cursor.mark.indent? with
  | none => exact ⟨_, s, rfl, .refl s⟩
  | some found => exact ⟨_, _, rfl, ⟨found.2, rfl⟩, List.prefix_rfl⟩

theorem report (kind : Diagnostic.Kind) : Balanced (report (m := ParseM) kind).run := fun s =>
  ⟨some (), _, rfl, ⟨s.cursor.mark, rfl⟩, List.prefix_append _ _⟩

end Balanced

/-! ### Snapshots -/

/-- A parser that takes a snapshot of its cursor at each attempt.  It opens transactions as well,
but does not look at them when it closes one. -/
def SnapshotM : Type → Type := ParseM

instance : Monad SnapshotM := inferInstanceAs (Monad ParseM)

/-- Runs a rule, and afterwards restores from the snapshot what the rule may not change: all of the
cursor if it fails, else the open transactions. -/
def SnapshotM.attempt {α : Type} (rule : OptionT ParseM α) : OptionT ParseM α :=
  OptionT.mk fun s => match StateT.run rule.run { s with cursor := s.cursor.begin } with
    | .ok (none, s') => .ok (none, { s' with cursor := s.cursor })
    | .ok (some a, s') => .ok (some a, { s' with cursor := s.cursor.moveTo s'.cursor.mark })
    | .error e => .error e

theorem SnapshotM.run_attempt {α : Type} (rule : OptionT ParseM α) (s : Parsing) :
    StateT.run (attempt rule).run s =
      match StateT.run rule.run { s with cursor := s.cursor.begin } with
      | .ok (none, s') => .ok (none, { s' with cursor := s.cursor })
      | .ok (some a, s') => .ok (some a, { s' with cursor := s.cursor.moveTo s'.cursor.mark })
      | .error e => .error e := rfl

instance : Scanner SnapshotM :=
  { (inferInstanceAs (Scanner ParseM) : Scanner SnapshotM) with attempt := SnapshotM.attempt }

/-- Around an action that is balanced, a transaction is as good as a snapshot. -/
theorem Balanced.transaction_eq {α : Type} {x : OptionT ParseM α} (h : Balanced x.run) :
    ParseM.transaction x = SnapshotM.attempt x := by
  refine OptionT.ext (funext fun s => ?_)
  obtain ⟨result, s', hx, ⟨m, hm⟩, -⟩ := h { s with cursor := s.cursor.begin }
  change StateT.run (ParseM.transaction x).run s = StateT.run (SnapshotM.attempt x).run s
  -- The transaction on top is the one that was opened, and holds the mark of the snapshot.
  rw [ParseM.run_transaction, SnapshotM.run_attempt, hx]
  cases result with
  | none =>
    have hclose : s'.cursor.rollback = .ok s.cursor := by rw [hm]; rfl
    simp only [hclose]
    rfl
  | some a =>
    have hclose : s'.cursor.commit = .ok (s.cursor.moveTo s'.cursor.mark) := by rw [hm]; rfl
    simp only [hclose]
    rfl

theorem Balanced.attempt {α : Type} {x : OptionT ParseM α} (h : Balanced x.run) :
    Balanced (ParseM.transaction x).run := by
  intro s
  obtain ⟨result, s', hx, ⟨m, hm⟩, hrecorded⟩ := h { s with cursor := s.cursor.begin }
  rw [h.transaction_eq, SnapshotM.run_attempt, hx]
  cases result with
  | none => exact ⟨_, _, rfl, ⟨s.cursor.mark, rfl⟩, hrecorded⟩
  | some a => exact ⟨_, _, rfl, ⟨s'.cursor.mark, rfl⟩, hrecorded⟩

/-- **Every rule is balanced, and its transactions are as good as snapshots.** -/
theorem balanced :
    Simulation (m := ParseM) (n := SnapshotM) (fun _ x y => x = y ∧ Balanced x) where
  pure a := ⟨rfl, .pure a⟩
  bind h hf := ⟨by rw [h.1, funext fun a => (hf a).1]; rfl, h.2.bind fun a => (hf a).2⟩
  keyword text := ⟨rfl, .keyword text⟩
  identifier := ⟨rfl, .identifier⟩
  typeName := ⟨rfl, .typeName⟩
  indent := ⟨rfl, .indent⟩
  attempt {_ x y} h := by
    obtain rfl : x = y := h.1
    exact ⟨congrArg _ h.2.transaction_eq, h.2.attempt⟩
  remaining := ⟨rfl, .look fun s => ⟨s.cursor.mark.rest.length, rfl⟩⟩
  report kind := ⟨rfl, .report kind⟩

/-! ### Where a failure leaves the cursor -/

theorem ParseM.run_bound {α : Type} (f : Nat → OptionT ParseM α) (s : Parsing) :
    StateT.run (bound >>= f).run s = StateT.run (f (s.cursor.mark.rest.length + 1)).run s := rfl

/-- If the rule fails then it leaves the cursor there. -/
def FailsAt {α : Type} (place : Cursor → Cursor) (x : OptionT ParseM α) : Prop :=
  ∀ s s', StateT.run x.run s = .ok (none, s') → s'.cursor = place s.cursor

namespace FailsAt

variable {α β : Type} {place place' : Cursor → Cursor} {x y : OptionT ParseM α}

theorem orElse (hx : Balanced x.run) (h : FailsAt place x) (h' : FailsAt place' y) :
    FailsAt (fun c => place' (place c)) (x <|> y) := by
  intro s s'' hrun
  obtain ⟨result, s', hrun', -⟩ := hx s
  rw [OptionT.run_orElse, Option.elimM, StateT.run_bind, hrun'] at hrun
  cases result with
  | none => rw [h' s' s'' hrun, h s s' hrun']
  | some a => cases hrun

/-- What cannot fail behind a rule does not count. -/
theorem next (hx : Balanced x.run) (h : FailsAt place x) (f : α → β) :
    FailsAt place (x >>= fun a => pure (f a)) := by
  intro s s'' hrun
  obtain ⟨result, s', hrun', -⟩ := hx s
  rw [OptionT.run_bind, Option.elimM, StateT.run_bind, hrun'] at hrun
  cases result with
  | none =>
    cases hrun
    exact h s _ hrun'
  | some a => cases hrun

theorem map (hx : Balanced x.run) (h : FailsAt place x) (f : α → β) : FailsAt place (f <$> x) :=
  next hx h f

/-- A token that is not there is not in the table either, and the cursor stays behind the blanks. -/
theorem token {kind : TokenKind} {text : String}
    {find : Cursor → Except Unbalanced (Option String × Cursor)} (hfind : kind.FoundBy text find)
    (expected : Option String) :
    FailsAt Cursor.skipSpace (ParseM.token kind expected find) := by
  intro s s' hrun
  rw [ParseM.run_token, hfind] at hrun
  cases hlookup : s.parser.memo.lookup? s.cursor.position kind expected s.cursor with
  | some found => rw [hlookup] at hrun; cases hrun
  | none =>
    rw [hlookup] at hrun
    cases htoken : kind.find? text s.cursor.mark.skipSpace with
    | some found => rw [htoken] at hrun; cases hrun
    | none =>
      rw [htoken] at hrun
      cases hrun
      rfl

theorem keyword (text : String) : FailsAt Cursor.skipSpace (Scanner.keyword (m := ParseM) text) :=
  next (.token (.keyword text) _) (token (.keyword text) _) _

theorem identifier : FailsAt Cursor.skipSpace (Scanner.identifier (m := ParseM)) :=
  token .identifier none

theorem typeName : FailsAt Cursor.skipSpace (Scanner.typeName (m := ParseM)) :=
  token .typeName none

/-- A snapshot restores all of the cursor. -/
theorem attempt (x : OptionT ParseM α) : FailsAt id (SnapshotM.attempt x) := by
  intro s s' hrun
  rw [SnapshotM.run_attempt] at hrun
  split at hrun <;> cases hrun
  rfl

theorem of_snapshot (h : x.run = (SnapshotM.attempt y).run) : FailsAt id x := by
  intro s s' hrun
  rw [h] at hrun
  exact attempt y s s' hrun

theorem arrayType : FailsAt id (Grammar.arrayType (m := ParseM)) :=
  of_snapshot balanced.arrayType.1

theorem mapType : FailsAt id (Grammar.mapType (m := ParseM)) :=
  of_snapshot balanced.mapType.1

theorem signature : FailsAt id (Grammar.signature (m := ParseM)) :=
  of_snapshot balanced.signature.1

theorem typeDefinition : FailsAt id (Grammar.typeDefinition (m := ParseM)) :=
  of_snapshot balanced.typeDefinition.1

theorem function : FailsAt id (Grammar.function (m := ParseM)) :=
  of_snapshot balanced.function.1

theorem deconstructorWithin (k : Nat) :
    FailsAt id (Grammar.deconstructorWithin (m := ParseM) (k + 1)) := by
  have hsnapshot := (balanced.deconstructorWithin (k + 1)).1
  rw [deconstructorWithin_succ] at hsnapshot
  exact of_snapshot hsnapshot

theorem deconstructor : FailsAt id (Grammar.deconstructor (m := ParseM)) := by
  intro s s' hrun
  -- The bound on the depth is not zero.
  rw [Grammar.deconstructor, ParseM.run_bound] at hrun
  exact deconstructorWithin s.cursor.mark.rest.length s s' hrun

theorem declaration : FailsAt id (Grammar.declaration (m := ParseM)) :=
  orElse (balanced.map _ balanced.typeDefinition).2 (map balanced.typeDefinition.2 typeDefinition _)
    (map balanced.signature.2 signature _)

/-- None of the forms of a type expression goes beyond the blanks if it fails. -/
theorem typeExpr : FailsAt Cursor.skipSpace (Grammar.typeExpr (m := ParseM)) := by
  have hunit : FailsAt Cursor.skipSpace
      (do Scanner.keyword "()"; return TypeExpr.unit : OptionT ParseM _) :=
    next (.keyword "()") (keyword "()") _
  have hforms := orElse (balanced.map TypeExpr.plain balanced.typeName).2
    (map .typeName typeName _)
    (orElse balanced.arrayType.2 arrayType (orElse balanced.mapType.2 mapType hunit))
  intro s s' hrun
  rw [hforms s s' hrun]
  exact s.cursor.skipSpace_skipSpace

end FailsAt

/-! ### Calls -/

/-- Where a call that fails leaves the cursor.  A form goes back to where it began, and what may be
a single token stays behind the blanks. -/
def Call.leaves (c : Cursor) : Call → Cursor
  | keyword _ => c.skipSpace
  | identifier => c.skipSpace
  | typeName => c.skipSpace
  | typeExpr => c.skipSpace
  | signature => c
  | typeDefinition => c
  | deconstructor => c
  | function => c
  | declaration => c

theorem Call.failsAt (call : Call) : FailsAt call.leaves (call.rule (m := ParseM)) := by
  cases call with
  | keyword text => exact .keyword text
  | identifier => exact .identifier
  | typeName => exact .typeName
  | typeExpr => exact .typeExpr
  | signature => exact .signature
  | typeDefinition => exact .typeDefinition
  | deconstructor => exact .deconstructor
  | function => exact .function
  | declaration => exact .declaration

/-- **A call is a transaction.**  Whatever the memo table holds, whatever mark the cursor is at and
whatever transactions are open on it, the call returns, without closing a transaction that it has
not opened.  The transactions that were open are open afterwards and no others, the diagnostics
recorded before are still recorded, and if the call fails then the cursor is back where it was, or
for a token behind the blanks. -/
theorem Parser.run_call_balanced (parser : Parser) (c : Cursor) (call : Call) :
    ∃ result after, parser.run c call.rule = .ok (result, after) ∧
      after.cursor.saved = c.saved ∧ after.cursor.source = c.source ∧
      after.cursor.filename = c.filename ∧ parser.recorded <+: after.parser.recorded ∧
      (result = none → after.cursor = call.leaves c) := by
  obtain ⟨result, after, hrun, ⟨m, hm⟩, hrecorded⟩ := (balanced.call call).2 ⟨parser, c⟩
  refine ⟨result, after, hrun, by rw [hm]; rfl, by rw [hm]; rfl, by rw [hm]; rfl, hrecorded, ?_⟩
  rintro rfl
  exact call.failsAt ⟨parser, c⟩ after hrun

end Grammar

end DeclLang
