import Mathlib.Data.Finset.Card
import Mathlib.Data.List.DropRight
import DeclLang.Proofs.Grammar.Memoization

/-!
# What a memo table remembers

A memo table is used through any number of cursors on any number of sources.  What it has been told
is a list of recordings, and what it remembers of them is said without looking at its entries: the
recordings since it was last bound to another source (`live`), and of those with one position and
kind the latest (`latest?`).

`MemoTable.Reflects` is the invariant that ties the two together; one recording keeps it
(`MemoTable.Reflects.record`), and a lookup changes nothing.  `MemoTable.use_lookup_spec` says what
follows for a lookup after any sequence of uses.  Nothing is assumed of what is recorded: the
positions need not be those of the cursors, nor the tokens those of the texts.
-/

namespace DeclLang.Grammar

open Text

/-! ### Uses of a table -/

/-- A token recorded through a cursor. -/
structure Recording where
  /-- The cursor, as it was then. -/
  cursor : Cursor
  /-- The position the token is recorded for. -/
  position : Nat
  /-- The kind it is recorded for. -/
  kind : TokenKind
  /-- The token. -/
  token : String

/-- One use of a table, through a cursor as it is at that moment. -/
inductive Use
  /-- Records a token. -/
  | record (r : Recording)
  /-- Looks a token up. -/
  | lookup (c : Cursor) (position : Nat) (kind : TokenKind) (expected : Option String)

/-- What a use returns, and the cursor and the table behind it. -/
def MemoTable.use (t : MemoTable) : Use → Option String × Cursor × MemoTable
  | .record r => (some r.token, r.cursor, t.record r.position r.kind r.cursor r.token)
  | .lookup c position kind expected =>
    match t.lookup? position kind expected c with
    | some (token, c') => (some token, c', t)
    | none => (none, c, t)

/-- The table behind a sequence of uses. -/
def MemoTable.useAll (t : MemoTable) (uses : List Use) : MemoTable :=
  uses.foldl (fun t u => (t.use u).2.2) t

/-- A lookup leaves the table as it is. -/
theorem MemoTable.use_lookup_table (t : MemoTable) (c : Cursor) (position : Nat) (kind : TokenKind)
    (expected : Option String) : (t.use (.lookup c position kind expected)).2.2 = t := by
  show (match t.lookup? position kind expected c with
    | some (token, c') => (some token, c', t)
    | none => (none, c, t) : Option String × Cursor × MemoTable).2.2 = t
  cases t.lookup? position kind expected c <;> rfl

/-- The recordings among the uses. -/
def recordings (uses : List Use) : List Recording :=
  uses.filterMap fun
    | .record r => some r
    | .lookup _ _ _ _ => none

/-! ### What is remembered -/

/-- What a token is recorded for. -/
def Recording.key (r : Recording) : Nat × TokenKind := (r.position, r.kind)

/-- What the table keeps of a recording. -/
def Recording.memo (r : Recording) : Memo := ⟨r.cursor.mark, r.token⟩

/-- The source of the latest recording. -/
def bound? (log : List Recording) : Option Source := log.getLast?.map (·.cursor.source)

/-- The recordings since the source last changed. -/
def live (log : List Recording) : List Recording :=
  log.rtakeWhile fun r => bound? log = some r.cursor.source

/-- The latest recording for a position and a kind. -/
def latest? (log : List Recording) (key : Nat × TokenKind) : Option Recording :=
  log.reverse.find? (·.key = key)

/-- The recording answers a lookup: the table is bound to the source of the cursor, the recording is
the latest for the position and the kind since then, and its token is the expected one. -/
structure Answers (log : List Recording) (c : Cursor) (position : Nat) (kind : TokenKind)
    (expected : Option String) (r : Recording) : Prop where
  bound : bound? log = some c.source
  latest : ∃ before after, live log = before ++ r :: after ∧ r.key = (position, kind) ∧
    ∀ r' ∈ after, r'.key ≠ (position, kind)
  expected : ∀ token ∈ expected, token = r.token

theorem live_concat (log : List Recording) (r : Recording) :
    live (log ++ [r]) =
      (if bound? log = some r.cursor.source then live log else []) ++ [r] := by
  have hbound : bound? (log ++ [r]) = some r.cursor.source := by simp [bound?]
  rw [live, hbound, List.rtakeWhile_concat_pos _ _ _ (by simp)]
  congr 1
  split
  case isTrue h => rw [live, h]
  case isFalse h =>
    -- The recording before is on another source, so none before it counts.
    induction log using List.reverseRecOn with
    | nil => rfl
    | append_singleton log last _ =>
      refine List.rtakeWhile_concat_neg _ _ _ ?_
      simpa [bound?, eq_comm] using h

theorem latest?_concat (log : List Recording) (r : Recording) (key : Nat × TokenKind) :
    latest? (log ++ [r]) key = if r.key = key then some r else latest? log key := by
  rw [latest?, List.reverse_append, List.reverse_singleton, List.singleton_append, List.find?_cons]
  split <;> simp_all [latest?]

theorem latest?_eq_some_iff {log : List Recording} {key : Nat × TokenKind} {r : Recording} :
    latest? log key = some r ↔ ∃ before after, log = before ++ r :: after ∧ r.key = key ∧
      ∀ r' ∈ after, r'.key ≠ key := by
  rw [latest?, List.find?_eq_some_iff_append]
  constructor
  · rintro ⟨hkey, as, bs, hlog, has⟩
    refine ⟨bs.reverse, as.reverse, ?_, by simpa using hkey, by simpa using has⟩
    rw [← List.reverse_reverse log, hlog]
    simp
  · rintro ⟨before, after, rfl, hkey, hafter⟩
    exact ⟨by simpa using hkey, after.reverse, before.reverse, by simp, by simpa using hafter⟩

theorem isSome_latest?_iff {log : List Recording} {key : Nat × TokenKind} :
    (latest? log key).isSome ↔ key ∈ (log.map Recording.key).toFinset := by
  simp [latest?, List.find?_isSome]

/-! ### A table and its history -/

/-- The entries are the latest of the recordings for each position and kind. -/
structure Holds (entries : Std.TreeMap Nat Memo) (log : List Recording) : Prop where
  entry (position : Nat) (kind : TokenKind) :
    entries[Memo.key position kind]? = (latest? log (position, kind)).map Recording.memo
  size : entries.size = (log.map Recording.key).toFinset.card

namespace Holds

theorem nil : Holds ∅ [] := ⟨fun position kind => by simp [latest?], by simp⟩

/-- One recording more is for a new position and kind, or takes the place of an older one. -/
theorem insert {entries : Std.TreeMap Nat Memo} {log : List Recording} (h : Holds entries log)
    (r : Recording) :
    Holds (entries.insert (Memo.key r.position r.kind) r.memo) (log ++ [r]) := by
  refine ⟨fun position kind => ?_, ?_⟩
  · simp only [latest?_concat, Std.TreeMap.getElem?_insert, Nat.compare_eq_eq, Memo.key_inj,
      Recording.key, Prod.mk.injEq]
    split
    case isTrue => rfl
    case isFalse => exact h.entry position kind
  · have hkeys : ((log ++ [r]).map Recording.key).toFinset =
        {r.key} ∪ (log.map Recording.key).toFinset := by
      rw [List.map_append, List.toFinset_append, Finset.union_comm]
      simp
    have hold : entries.contains (Memo.key r.position r.kind) = true ↔
        r.key ∈ (log.map Recording.key).toFinset := by
      rw [Std.TreeMap.contains_eq_isSome_getElem?, h.entry, Option.isSome_map]
      exact isSome_latest?_iff
    rw [hkeys, Finset.singleton_union, Std.TreeMap.size_insert, h.size]
    by_cases hmem : r.key ∈ (log.map Recording.key).toFinset
    · rw [Finset.card_insert_of_mem hmem, if_pos (hold.2 hmem)]
    · rw [Finset.card_insert_of_notMem hmem, if_neg (mt hold.1 hmem)]

end Holds

namespace MemoTable

variable {t : MemoTable} {log : List Recording}

/-- The table is bound to the source of the latest recording, and its entries are the recordings
since the source last changed. -/
structure Reflects (t : MemoTable) (log : List Recording) : Prop where
  source : t.source = bound? log
  entries : Holds t.entries (live log)

namespace Reflects

theorem empty : MemoTable.empty.Reflects [] := ⟨rfl, .nil⟩

/-- **One recording is one more in the history.** -/
theorem record (h : t.Reflects log) (r : Recording) :
    (t.record r.position r.kind r.cursor r.token).Reflects (log ++ [r]) := by
  refine ⟨by simp [MemoTable.record, bound?], ?_⟩
  rw [live_concat, MemoTable.record, h.source]
  by_cases hbound : bound? log = some r.cursor.source
  · rw [if_pos hbound, if_pos hbound]
    exact h.entries.insert r
  · rw [if_neg hbound, if_neg hbound]
    exact Holds.nil.insert r

/-- **A table remembers what it has been told, however it was used.** -/
theorem useAll (uses : List Use) : (MemoTable.empty.useAll uses).Reflects (recordings uses) := by
  induction uses using List.reverseRecOn with
  | nil => exact .empty
  | append_singleton uses u ih =>
    rw [MemoTable.useAll, List.foldl_append, recordings, List.filterMap_append]
    cases u with
    | record r => exact ih.record r
    | lookup c position kind expected =>
      rw [List.foldl_cons, List.foldl_nil, use_lookup_table]
      show MemoTable.Reflects _ (recordings uses ++ [])
      rwa [List.append_nil]

/-- A lookup is answered by the recording that the history answers it by. -/
theorem lookup?_eq_some_iff (h : t.Reflects log) {c : Cursor} {position : Nat} {kind : TokenKind}
    {expected : Option String} {token : String} {c' : Cursor} :
    t.lookup? position kind expected c = some (token, c') ↔
      ∃ r, Answers log c position kind expected r ∧ r.token = token ∧
        c.moveTo r.cursor.mark = c' := by
  rw [MemoTable.lookup?_eq_some_iff, h.source, h.entries.entry]
  have hexpected (token : String) :
      expected.all (· = token) = true ↔ ∀ e ∈ expected, e = token := by
    simp [Option.all_eq_true]
  constructor
  · rintro ⟨hbound, memo, hentry, hall, rfl, rfl⟩
    obtain ⟨r, hlatest, rfl⟩ := Option.map_eq_some_iff.1 hentry
    exact ⟨r, ⟨hbound, latest?_eq_some_iff.1 hlatest, (hexpected r.token).1 hall⟩, rfl, rfl⟩
  · rintro ⟨r, hr, rfl, rfl⟩
    refine ⟨hr.bound, r.memo, ?_, (hexpected r.token).2 hr.expected, rfl, rfl⟩
    rw [latest?_eq_some_iff.2 hr.latest, Option.map_some]

end Reflects

/-- **A memo table is a log of the source it is bound to.**  After any uses of a table, through any
cursors on any sources,

* a lookup is answered if and only if the latest recording was made on the source of the cursor and,
  of those made since the source last changed, the latest one for the position and the kind has the
  token that is expected, or any token if none is;
* then it returns that token, moves the cursor to the mark that was recorded, and changes nothing
  else;
* otherwise it changes nothing at all;
* the size of the table is the number of positions and kinds recorded since the source last
  changed. -/
theorem use_lookup_spec (uses : List Use) (c : Cursor) (position : Nat) (kind : TokenKind)
    (expected : Option String) :
    let t := empty.useAll uses
    let log := recordings uses
    let after := t.use (.lookup c position kind expected)
    (after.1.isSome ↔ ∃ r, Answers log c position kind expected r) ∧
    (∀ r, Answers log c position kind expected r →
      after = (some r.token, { c with mark := r.cursor.mark }, t)) ∧
    ((¬ ∃ r, Answers log c position kind expected r) → after = (none, c, t)) ∧
    t.size = ((live log).map fun r => (r.position, r.kind)).toFinset.card := by
  intro t log after
  have h : t.Reflects log := .useAll uses
  have hit {r : Recording} (hr : Answers log c position kind expected r) :
      after = (some r.token, { c with mark := r.cursor.mark }, t) := by
    have hlookup := h.lookup?_eq_some_iff.2 ⟨r, hr, rfl, rfl⟩
    simp only [after, use, hlookup]
    rfl
  have miss (hnone : ¬ ∃ r, Answers log c position kind expected r) : after = (none, c, t) := by
    have hlookup : t.lookup? position kind expected c = none := by
      rw [Option.eq_none_iff_forall_ne_some]
      rintro ⟨token, c'⟩ hsome
      obtain ⟨r, hr, -⟩ := h.lookup?_eq_some_iff.1 hsome
      exact hnone ⟨r, hr⟩
    simp only [after, use, hlookup]
  refine ⟨⟨fun hsome => ?_, fun ⟨r, hr⟩ => by rw [hit hr]; rfl⟩, fun r => hit, miss, h.entries.size⟩
  by_contra hnone
  rw [miss hnone] at hsome
  cases hsome

/-- Two sources with the same text.  A table that comes back to the first one has forgotten what was
recorded on it before, and a lookup through the wrong cursor takes nothing away. -/
example :
    let c := Cursor.start ⟨0, "x"⟩ "f"
    let c' := Cursor.start ⟨1, "x"⟩ "f"
    let t := empty.useAll [.record ⟨c, 0, .keyword, "x"⟩, .record ⟨c', 0, .keyword, "x"⟩,
      .record ⟨c, 1, .keyword, "x"⟩, .lookup c' 1 .keyword none]
    t.size = 1 ∧ (t.use (.lookup c 0 .keyword none)).1 = none ∧
      (t.use (.lookup c 1 .keyword none)).1 = some "x" := by decide

end MemoTable

end DeclLang.Grammar
