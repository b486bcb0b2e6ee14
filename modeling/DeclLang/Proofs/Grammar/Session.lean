import Mathlib.Logic.Relation
import Mathlib.Logic.Function.Basic
import DeclLang.Proofs.Grammar.Memoization

/-!
# Sessions

A `Session` is one parser with the cursors it is put to work on, any number of them on any number
of sources.  A step of a session is a rule called on one of the cursors, a movement of a cursor
without the parser, or the diagnostics being taken.

Every entry of the memo table of a session stands in the source the table is bound to, whoever
wrote it: a branch that was given up later, another cursor, another rule
(`Session.Sound.of_reachable`).  So a call of a rule does what it does for a parser that has seen
nothing (`Session.run_eq_run_empty`).

A line feed that is read as a single character does not begin a new line (`Mark.read?`).  The
cursor is then at no mark of its text, and movements of that kind are left out (`Cursor.Move`).
-/

namespace DeclLang

namespace Text.Cursor

/-! ### Movements of a cursor -/

/-- A movement of a cursor that keeps count of lines. -/
inductive Move (c : Cursor) : Cursor → Prop
  | skipSpace : Move c c.skipSpace
  | readIndent {width : Option Nat} {c' : Cursor} : c.readIndent = .ok (width, c') → Move c c'
  | readKeyword {text : String} {found : Bool} {c' : Cursor} :
      c.readKeyword text = .ok (found, c') → Move c c'
  | readWord {first more : Char → Bool} {word : Option String} {c' : Cursor} :
      c.readWord first more = .ok (word, c') → Move c c'
  | read : c.peek? ≠ some '\n' → Move c c.read.2
  | begin : Move c c.begin
  | commit {c' : Cursor} : c.commit = .ok c' → Move c c'
  | rollback {c' : Cursor} : c.rollback = .ok c' → Move c c'

/-- The cursor is at a mark of its text, and so are the transactions open on it. -/
structure Within (c : Cursor) : Prop where
  mark : c.mark.On c.source.text
  saved : ∀ m ∈ c.saved, m.On c.source.text

namespace Within

variable {c c' : Cursor}

theorem start (source : Source) (filename : String) : (Cursor.start source filename).Within :=
  ⟨.start source.text, by simp [Cursor.start]⟩

theorem moveTo (h : c.Within) {m : Mark} (hm : m.On c.source.text) : (c.moveTo m).Within :=
  ⟨hm, h.saved⟩

theorem passes (h : c.Within) (hpass : c.Passes c') : c'.Within := by
  obtain ⟨cs, hmark, hc'⟩ := hpass
  rw [hc']
  exact h.moveTo (h.mark.passes hmark)

theorem move (h : c.Within) (hmove : c.Move c') : c'.Within := by
  cases hmove with
  | skipSpace => exact h.passes c.skipSpace_passes
  | readIndent hread => exact h.passes (Cursor.readIndent_passes hread)
  | readKeyword hread => exact h.passes (c.readKeyword_passes hread)
  | readWord hread => exact h.passes (c.readWord_passes hread)
  | read hpeek => exact h.passes (c.read_passes hpeek)
  | begin => exact ⟨h.mark, by simpa [begin] using ⟨h.mark, h.saved⟩⟩
  | commit hcommit =>
    unfold commit at hcommit
    split at hcommit
    case h_1 => cases hcommit
    case h_2 m saved hsaved =>
      cases hcommit
      exact ⟨h.mark, fun m' hm' => h.saved m' (by simp [hsaved, hm'])⟩
  | rollback hrollback =>
    unfold rollback at hrollback
    split at hrollback
    case h_1 => cases hrollback
    case h_2 m saved hsaved =>
      cases hrollback
      exact ⟨h.saved m (by simp [hsaved]), fun m' hm' => h.saved m' (by simp [hsaved, hm'])⟩

end Within

end Text.Cursor

namespace Grammar

open Text

/-! ### Sessions -/

/-- A parser and its cursors. -/
structure Session where
  /-- The parser. -/
  parser : Parser
  /-- The cursors. -/
  cursors : Nat → Cursor

namespace Session

/-- A fresh parser, with each cursor at the start of a source and under a file name of its own. -/
def start (files : Nat → Source × String) : Session :=
  ⟨.empty, fun i => .start (files i).1 (files i).2⟩

/-- The session after one of the cursors has changed. -/
def setCursor (s : Session) (i : Nat) (c : Cursor) : Session :=
  { s with cursors := Function.update s.cursors i c }

/-- One step of a session. -/
inductive Step (s : Session) : Session → Prop
  | call (i : Nat) (call : Call) {result : Option call.Result} {after : Parsing} :
      s.parser.run (s.cursors i) call.rule = .ok (result, after) →
        Step s ({ s with parser := after.parser }.setCursor i after.cursor)
  | move (i : Nat) {c : Cursor} : (s.cursors i).Move c → Step s (s.setCursor i c)
  | take : Step s { s with parser.recorded := [] }

/-- The session can come about from another one. -/
def Reachable (s₀ s : Session) : Prop := Relation.ReflTransGen Step s₀ s

/-- What holds of every session: the table is faithful and the cursors are at marks of their
texts. -/
structure Sound (s : Session) : Prop where
  faithful : s.parser.memo.Faithful
  within (i : Nat) : (s.cursors i).Within

namespace Sound

variable {s s' : Session}

theorem start (files : Nat → Source × String) : (Session.start files).Sound :=
  ⟨MemoTable.faithful_empty, fun i => .start (files i).1 (files i).2⟩

theorem setCursor (h : s.Sound) (i : Nat) {c : Cursor} (hc : c.Within) :
    (s.setCursor i c).Sound := by
  refine ⟨h.faithful, fun j => ?_⟩
  by_cases hj : j = i
  · subst hj
    simpa [Session.setCursor] using hc
  · simpa [Session.setCursor, hj] using h.within j

theorem step (h : s.Sound) (hstep : s.Step s') : s'.Sound := by
  cases hstep with
  | call i call hrun =>
    obtain ⟨memo, hmemo, hmark, hcall⟩ := Parser.run_call h.faithful (h.within i).mark call
    rw [hcall] at hrun
    cases hrun
    have hparser : Sound ⟨⟨memo, s.parser.recorded ++ (call.reading (s.cursors i)).2.recorded⟩,
        s.cursors⟩ := ⟨hmemo, h.within⟩
    exact hparser.setCursor i ((h.within i).moveTo hmark)
  | move i hmove => exact h.setCursor i ((h.within i).move hmove)
  | take => exact ⟨h.faithful, h.within⟩

theorem of_reachable {files : Nat → Source × String} (h : (Session.start files).Reachable s) :
    s.Sound := by
  induction h with
  | refl => exact .start files
  | tail _ hstep ih => exact ih.step hstep

end Sound

/-- **The memo table does not show.**  After any steps of a session, a call of a rule on any of its
cursors returns what it returns for a parser that has seen nothing, records the same diagnostics,
and leaves the cursor at the same mark with the same open transactions. -/
theorem run_eq_run_empty {files : Nat → Source × String} {s : Session}
    (h : (start files).Reachable s) (i : Nat) (call : Call) :
    ∃ result cursor recorded memo memo',
      s.parser.run (s.cursors i) call.rule =
        .ok (result, ⟨⟨memo, s.parser.recorded ++ recorded⟩, cursor⟩) ∧
      Parser.empty.run (s.cursors i) call.rule = .ok (result, ⟨⟨memo', recorded⟩, cursor⟩) := by
  have hsound := Sound.of_reachable h
  -- Both parsers are compared with the plain reader that stands where the cursor does.
  obtain ⟨memo, -, -, hwarm⟩ := Parser.run_call hsound.faithful (hsound.within i).mark call
  obtain ⟨memo', -, -, hcold⟩ :=
    @Parser.run_call .empty _ MemoTable.faithful_empty (hsound.within i).mark call
  exact ⟨_, _, _, memo, memo', hwarm, hcold⟩

/-- Two cursors share a source, and the first one has read the signature in it.  The table has its
two tokens then, and the second cursor reads the signature all the same. -/
theorem run_eq_run_empty_shared : ∃ s, (start fun _ => (⟨0, "a :: "⟩, "f")).Reachable s ∧
    s.parser.memo.size = 2 ∧ ∃ result cursor recorded memo memo',
      s.parser.run (s.cursors 1) Call.signature.rule =
        .ok (result, ⟨⟨memo, s.parser.recorded ++ recorded⟩, cursor⟩) ∧
      Parser.empty.run (s.cursors 1) Call.signature.rule =
        .ok (result, ⟨⟨memo', recorded⟩, cursor⟩) := by
  have heval : (Parser.empty.run (.start ⟨0, "a :: "⟩ "f") Call.signature.rule).toOption.map
      (fun found => found.2.parser.memo.size) = some 2 := by decide +kernel
  cases hrun : Parser.empty.run (.start ⟨0, "a :: "⟩ "f") Call.signature.rule with
  | error => rw [hrun] at heval; cases heval
  | ok found =>
    rw [hrun] at heval
    have h : (start fun _ => (⟨0, "a :: "⟩, "f")).Reachable _ := .single (.call 0 .signature hrun)
    exact ⟨_, h, Option.some.inj heval, run_eq_run_empty h 1 .signature⟩

end Session

end Grammar

end DeclLang
