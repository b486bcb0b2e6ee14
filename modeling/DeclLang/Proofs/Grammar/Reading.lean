import DeclLang.Grammar.MemoTable
import DeclLang.Grammar.Scanner
import DeclLang.Proofs.Text.Passage

/-!
# Plain readings

`ReadM` reads a text with nothing but a mark: each token is looked for in the text each time, and
going back means to take up an old mark.  It is the meaning of the rules that the statements about
them are proved for; that a parser with its memo table and its transactions does the same is
`DeclLang.Proofs.Grammar.Memoization`.
-/

namespace DeclLang.Grammar

open Text

/-! ### Tokens -/

/-- The token of a kind that the text at a mark begins with, and the mark behind it.  The keyword
to look for is given; it has no meaning for names. -/
def TokenKind.find? (kind : TokenKind) (expected : String) (m : Mark) : Option (String × Mark) :=
  match kind with
  | .keyword => (m.literal? expected.toList).map (expected, ·)
  | .identifier => m.word? isVariableStart isNameChar
  | .typeName => m.word? isTypeStart isNameChar

/-- A token stands where it was found. -/
theorem TokenKind.passes_of_find? {kind : TokenKind} {expected token : String} {m m' : Mark}
    (h : kind.find? expected m = some (token, m')) : m.Passes token.toList m' := by
  have word {first more : Char → Bool} (h : m.word? first more = some (token, m')) :
      m.Passes token.toList m' := by
    obtain ⟨c, cs, rfl, -, -, -, hpass⟩ := Mark.word?_eq_some_iff.1 h
    simpa using hpass
  cases kind with
  | keyword =>
    obtain ⟨m'', hfound, heq⟩ := Option.map_eq_some_iff.1 h
    cases heq
    exact Mark.literal?_eq_some_iff.1 hfound
  | identifier => exact word h
  | typeName => exact word h

/-! ### Actions -/

/-- A reader of a text. -/
structure Reading where
  /-- The name of the file. -/
  filename : String
  /-- Where the reader is. -/
  mark : Mark
  /-- The diagnostics that were recorded and not yet taken, the oldest first. -/
  recorded : List Diagnostic

/-- Actions of a reader. -/
abbrev ReadM := StateM Reading

namespace ReadM

/-- What an action returns, and where it leaves the reader. -/
def run {α : Type} (x : ReadM α) (r : Reading) : α × Reading := x r

/-- Passes the blanks and then a token.  The blanks stay passed if no token is there. -/
def token (kind : TokenKind) (expected : String) : OptionT ReadM String := OptionT.mk fun r =>
  let m := r.mark.skipSpace
  match kind.find? expected m with
  | some (token, m') => (some token, { r with mark := m' })
  | none => (none, { r with mark := m })

/-- Passes the end of a line and the indentation of the next one. -/
def indent : OptionT ReadM Nat := OptionT.mk fun r =>
  match r.mark.indent? with
  | some (width, m') => (some width, { r with mark := m' })
  | none => (none, r)

/-- Runs a rule, and takes up the old mark if it fails. -/
def attempt {α : Type} (rule : OptionT ReadM α) : OptionT ReadM α := OptionT.mk fun r =>
  match run rule.run r with
  | (some a, r') => (some a, r')
  | (none, r') => (none, { r' with mark := r.mark })

instance : Scanner ReadM where
  keyword text := do let _ ← token .keyword text
  identifier := token .identifier ""
  typeName := token .typeName ""
  indent := indent
  skipSpace := modify fun s => { s with mark := s.mark.skipSpace }
  attempt := attempt
  atEnd := return (← get).mark.rest.isEmpty
  remaining := return (← get).mark.rest.length
  location := return ⟨(← get).filename, (← get).mark.place⟩
  record d := modify fun s => { s with recorded := s.recorded ++ [d] }
  takeRecorded := do
    let s ← get
    set { s with recorded := [] }
    return s.recorded

/-! ### Running an action -/

variable {α β : Type} (r : Reading)

theorem run_bind (x : ReadM α) (f : α → ReadM β) :
    run (x >>= f) r = run (f (run x r).1) (run x r).2 := rfl

theorem run_next (x : OptionT ReadM α) (f : α → OptionT ReadM β) :
    run (x >>= f).run r =
      match run x.run r with
      | (some a, r') => run (f a).run r'
      | (none, r') => (none, r') := by
  rw [OptionT.run_bind, Option.elimM, run_bind]
  rcases run x.run r with ⟨_ | a, r'⟩ <;> rfl

/-- Two steps return something if the first does and the second does behind it. -/
theorem run_next_eq_some_iff {x : OptionT ReadM α} {f : α → OptionT ReadM β} {r r'' : Reading}
    {b : β} : run (x >>= f).run r = (some b, r'') ↔
      ∃ a r', run x.run r = (some a, r') ∧ run (f a).run r' = (some b, r'') := by
  rw [run_next]
  constructor
  · intro h
    rcases hx : run x.run r with ⟨_ | a, r'⟩ <;> rw [hx] at h
    · cases h
    · exact ⟨a, r', rfl, h⟩
  · rintro ⟨a, r', hx, h⟩
    rw [hx]
    exact h

theorem run_orElse (x y : OptionT ReadM α) :
    run (x <|> y).run r =
      match run x.run r with
      | (some a, r') => (some a, r')
      | (none, r') => run y.run r' := by
  rw [OptionT.run_orElse, Option.elimM, run_bind]
  rcases run x.run r with ⟨_ | a, r'⟩ <;> rfl

theorem run_map (f : α → β) (x : OptionT ReadM α) :
    run (f <$> x).run r = ((run x.run r).1.map f, (run x.run r).2) := by
  change run (x >>= fun a => pure (f a)).run r = _
  rw [run_next]
  rcases run x.run r with ⟨_ | a, r'⟩ <;> rfl

theorem run_optional (x : OptionT ReadM α) :
    run (optional x).run r = (some (run x.run r).1, (run x.run r).2) := by
  change run (some <$> x <|> pure none).run r = _
  rw [run_orElse, run_map]
  rcases run x.run r with ⟨_ | a, r'⟩ <;> rfl

theorem run_token (kind : TokenKind) (expected : String) :
    run (token kind expected).run r =
      match kind.find? expected r.mark.skipSpace with
      | some (token, m') => (some token, { r with mark := m' })
      | none => (none, { r with mark := r.mark.skipSpace }) := rfl

theorem run_keyword (text : String) :
    run (Scanner.keyword text : OptionT ReadM Unit).run r =
      match r.mark.skipSpace.literal? text.toList with
      | some m' => (some (), { r with mark := m' })
      | none => (none, { r with mark := r.mark.skipSpace }) := by
  change run (token .keyword text >>= fun _ => pure ()).run r = _
  rw [run_next, run_token, TokenKind.find?]
  cases r.mark.skipSpace.literal? text.toList <;> rfl

theorem run_identifier :
    run (Scanner.identifier : OptionT ReadM String).run r =
      match r.mark.skipSpace.word? isVariableStart isNameChar with
      | some (name, m') => (some name, { r with mark := m' })
      | none => (none, { r with mark := r.mark.skipSpace }) := rfl

theorem run_typeName :
    run (Scanner.typeName : OptionT ReadM String).run r =
      match r.mark.skipSpace.word? isTypeStart isNameChar with
      | some (name, m') => (some name, { r with mark := m' })
      | none => (none, { r with mark := r.mark.skipSpace }) := rfl

theorem run_indent :
    run (Scanner.indent : OptionT ReadM Nat).run r =
      match r.mark.indent? with
      | some (width, m') => (some width, { r with mark := m' })
      | none => (none, r) := rfl

theorem run_attempt (rule : OptionT ReadM α) :
    run (Scanner.attempt rule).run r =
      match run rule.run r with
      | (some a, r') => (some a, r')
      | (none, r') => (none, { r' with mark := r.mark }) := rfl

theorem run_attempt_eq_some_iff {rule : OptionT ReadM α} {r r' : Reading} {a : α} :
    run (Scanner.attempt rule).run r = (some a, r') ↔ run rule.run r = (some a, r') := by
  rw [run_attempt]
  rcases run rule.run r with ⟨_ | b, r''⟩ <;> simp

end ReadM

end DeclLang.Grammar
