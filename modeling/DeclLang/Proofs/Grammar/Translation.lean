import DeclLang.Proofs.Grammar.Memoization
import DeclLang.Proofs.Text.Place

/-!
# The text before a cursor

A rule that is called in the middle of a text reads what is left of it as if that were all.  What
stands before moves the places, by bytes, by lines, and on the first line also by columns
(`Place.preceded`), and so it moves the mark where the rule ends and the diagnostics that it
records.

`Place.after` commutes with this movement, except from a line before the first one, and there is
none.  So every way to match a text does (`Mark.skipWhile_preceded`, `TokenKind.find?_preceded`,
`Mark.indent?_preceded`), then every way to build a rule (`translates`), and so every call
(`Parser.run_preceded`).
-/

namespace DeclLang

namespace Text

/-! ### Places and marks behind a text -/

/-- The place, if a text comes before its text. -/
def Place.preceded (before : List Char) (p : Place) : Place where
  offset := p.offset + (String.ofList before).utf8ByteSize
  line := p.line + before.count '\n'
  column := if p.line = 1 then p.column + (before.rtakeWhile (· ≠ '\n')).length else p.column

/-- The mark, if a text comes before its text. -/
def Mark.preceded (before : List Char) (m : Mark) : Mark := ⟨m.place.preceded before, m.rest⟩

variable {before cs : List Char} {p : Place} {m : Mark}

namespace Place

theorem line_le_line_after (p : Place) (c : Char) : p.line ≤ (p.after c).line := by
  unfold after
  split
  · exact Nat.le_succ p.line
  · exact le_rfl

theorem line_le_line_afterAll (p : Place) (cs : List Char) : p.line ≤ (p.afterAll cs).line := by
  induction cs generalizing p with
  | nil => exact le_rfl
  | cons c cs ih => exact (p.line_le_line_after c).trans (ih _)

/-- The first place of the text behind is the last one of the text before. -/
theorem preceded_start (before : List Char) : start.preceded before = start.afterAll before := by
  obtain ⟨hoffset, hline, hcolumn⟩ := behind_afterAll before
  show _ = Place.mk (start.afterAll before).offset (start.afterAll before).line
    (start.afterAll before).column
  rw [hoffset, hline, hcolumn]
  simp [preceded, start]

example : start.preceded "ab\nc".toList = ⟨4, 2, 2⟩ := by decide

theorem after_preceded (h : 1 ≤ p.line) (c : Char) :
    (p.preceded before).after c = (p.after c).preceded before := by
  by_cases hc : c = '\n'
  · -- The line behind is not the first one any more, so its columns are not moved.
    have hline : ¬ p.line = 0 := by omega
    simp only [after, hc, ↓reduceIte, preceded, Nat.add_eq_right, hline, mk.injEq]
    exact ⟨Nat.add_right_comm _ _ _, Nat.add_right_comm _ _ _, trivial⟩
  · simp only [after, hc, ↓reduceIte, preceded, mk.injEq, true_and]
    refine ⟨by omega, ?_⟩
    split <;> omega

theorem afterAll_preceded (h : 1 ≤ p.line) (cs : List Char) :
    (p.preceded before).afterAll cs = (p.afterAll cs).preceded before := by
  induction cs generalizing p with
  | nil => rfl
  | cons c cs ih =>
    rw [afterAll_cons, after_preceded h, afterAll_cons]
    exact ih (h.trans (p.line_le_line_after c))

end Place

namespace Mark

theorem skipWhile_preceded (h : 1 ≤ m.place.line) (q : Char → Bool) :
    (m.preceded before).skipWhile q = (m.skipWhile q).preceded before := by
  rw [skipWhile, preceded, Place.afterAll_preceded h, skipWhile, preceded]

theorem literal?_preceded (h : 1 ≤ m.place.line) :
    (m.preceded before).literal? cs = (m.literal? cs).map (·.preceded before) := by
  rw [literal?, preceded, Place.afterAll_preceded h, literal?]
  split <;> rfl

theorem word?_preceded (h : 1 ≤ m.place.line) (first more : Char → Bool) :
    (m.preceded before).word? first more =
      (m.word? first more).map fun found => (found.1, found.2.preceded before) := by
  rcases m with ⟨p, _ | ⟨c, rest⟩⟩
  · rfl
  have hmore := @skipWhile_preceded before ⟨p.after c, rest⟩
    (h.trans (p.line_le_line_after c)) more
  rw [preceded, ← Place.after_preceded h] at hmore
  simp only [word?, preceded]
  split
  · exact congrArg (fun n => some (_, n)) hmore
  · rfl

theorem indent?_preceded (h : 1 ≤ m.place.line) :
    (m.preceded before).indent? =
      m.indent?.map fun found => (found.1, found.2.preceded before) := by
  have hline : 1 ≤ (m.skipWhile isLineBlank).place.line := h.trans (m.place.line_le_line_afterAll _)
  unfold indent?
  rw [skipWhile_preceded h]
  simp only [preceded]
  split
  case h_1 rest hrest =>
    have hpad := @skipWhile_preceded before ⟨(m.skipWhile isLineBlank).place.after '\n', rest⟩
      (hline.trans (Place.line_le_line_after _ _)) isPad
    rw [preceded, ← Place.after_preceded hline] at hpad
    by_cases hwidth : (rest.takeWhile isPad).length = 0
    · simp only [hwidth, ↓reduceIte, Option.map_none]
    · simp only [hwidth, ↓reduceIte, Option.map_some]
      exact congrArg (fun n => some (_, n)) hpad
  case h_2 => rfl

end Mark

end Text

open Text

/-- The diagnostic, if a text comes before its text, and in a file of this name. -/
def Diagnostic.preceded (before : List Char) (filename : String) (d : Diagnostic) : Diagnostic :=
  ⟨d.kind, filename, d.location.place.preceded before⟩

namespace Grammar

theorem TokenKind.find?_preceded {before : List Char} {m : Mark} (h : 1 ≤ m.place.line)
    (kind : TokenKind) (expected : String) :
    kind.find? expected (m.preceded before) =
      (kind.find? expected m).map fun found => (found.1, found.2.preceded before) := by
  cases kind with
  | keyword =>
    rw [find?, Mark.literal?_preceded h, find?, Option.map_map, Option.map_map]
    rfl
  | identifier => exact Mark.word?_preceded h isVariableStart isNameChar
  | typeName => exact Mark.word?_preceded h isTypeStart isNameChar

/-! ### Readers behind a text -/

/-- The reader, if a text comes before its text, and in a file of this name. -/
def Reading.preceded (before : List Char) (filename : String) (r : Reading) : Reading :=
  ⟨filename, r.mark.preceded before, r.recorded.map (Diagnostic.preceded before filename)⟩

/-- The action does the same behind the text: it returns the same, and where it ends and what it
records is moved. -/
def Translates (before : List Char) (filename : String) (α : Type) (x y : ReadM α) : Prop :=
  ∀ r, 1 ≤ r.mark.place.line → 1 ≤ (ReadM.run x r).2.mark.place.line ∧
    ReadM.run y (r.preceded before filename) =
      ((ReadM.run x r).1, (ReadM.run x r).2.preceded before filename)

namespace Translates

variable {before : List Char} {filename : String} {α β : Type}

theorem pure (a : α) : Translates before filename α (pure a) (pure a) := fun _ h => ⟨h, rfl⟩

theorem bind {x y : ReadM α} {f g : α → ReadM β} (hx : Translates before filename α x y)
    (hf : ∀ a, Translates before filename β (f a) (g a)) :
    Translates before filename β (x >>= f) (y >>= g) := by
  intro r h
  obtain ⟨hline, hrun⟩ := hx r h
  rw [ReadM.run_bind, ReadM.run_bind, hrun]
  exact hf _ _ hline

theorem next {x y : OptionT ReadM α} {f g : α → OptionT ReadM β}
    (hx : Translates before filename _ x.run y.run)
    (hf : ∀ a, Translates before filename _ (f a).run (g a).run) :
    Translates before filename _ (x >>= f).run (y >>= g).run := by
  rw [OptionT.run_bind, OptionT.run_bind]
  refine hx.bind fun found => ?_
  cases found with
  | none => exact pure none
  | some a => exact hf a

theorem token (kind : TokenKind) (expected : String) :
    Translates before filename _ (ReadM.token kind expected).run
      (ReadM.token kind expected).run := by
  intro r h
  have hspace : 1 ≤ r.mark.skipSpace.place.line := h.trans (r.mark.place.line_le_line_afterAll _)
  have hskip : (r.mark.preceded before).skipSpace = r.mark.skipSpace.preceded before :=
    Mark.skipWhile_preceded h isBlank
  rw [ReadM.run_token, ReadM.run_token]
  simp only [Reading.preceded, hskip, TokenKind.find?_preceded hspace]
  cases hfound : kind.find? expected r.mark.skipSpace with
  | none => exact ⟨hspace, rfl⟩
  | some found =>
    refine ⟨?_, rfl⟩
    have hplace := (TokenKind.passes_of_find? hfound).2
    exact hspace.trans (hplace ▸ Place.line_le_line_afterAll _ _)

theorem indent : Translates before filename _ (Scanner.indent (m := ReadM)).run
    (Scanner.indent (m := ReadM)).run := by
  intro r h
  rw [ReadM.run_indent, ReadM.run_indent]
  simp only [Reading.preceded, Mark.indent?_preceded h]
  cases hfound : r.mark.indent? with
  | none => exact ⟨h, rfl⟩
  | some found =>
    obtain ⟨tail, pad, -, -, -, -, -, hpass⟩ := Mark.indent?_eq_some_iff.1 hfound
    exact ⟨h.trans (hpass.2 ▸ Place.line_le_line_afterAll _ _), rfl⟩

theorem attempt {x y : OptionT ReadM α} (hx : Translates before filename _ x.run y.run) :
    Translates before filename _ (Scanner.attempt x).run (Scanner.attempt y).run := by
  intro r h
  obtain ⟨hline, hrun⟩ := hx r h
  rw [ReadM.run_attempt, ReadM.run_attempt, hrun]
  rcases hxr : ReadM.run x.run r with ⟨_ | a, r'⟩ <;> rw [hxr] at hline
  · exact ⟨h, rfl⟩
  · exact ⟨hline, rfl⟩

theorem report (kind : Diagnostic.Kind) : Translates before filename _
    (report (m := ReadM) kind).run (report (m := ReadM) kind).run := by
  intro r h
  refine ⟨h, ?_⟩
  show (some (), Reading.mk _ _ _) = (some (), Reading.mk _ _ (List.map _ (r.recorded ++ [_])))
  rw [List.map_append]
  rfl

end Translates

/-- **Every rule does the same behind a text.** -/
theorem translates (before : List Char) (filename : String) :
    Simulation (m := ReadM) (n := ReadM) (Translates before filename) where
  pure := .pure
  bind := .bind
  keyword text := .next (.token .keyword text) fun _ => .pure _
  identifier := .token .identifier ""
  typeName := .token .typeName ""
  indent := .indent
  attempt := .attempt
  remaining := fun _ h => ⟨h, rfl⟩
  report := .report

/-- **A rule depends on the rest of the text alone.**  Let a cursor be at the end of the first part
of a text, at the place that is true there, whatever its source, its file and the transactions open
on it.  A call of a rule on that cursor returns what it returns at the start of a source that has
the second part alone.  The mark where it ends, and the places of the diagnostics that it records,
are those of the second part, moved by the bytes and the line feeds of the first part, and on the
first line by the columns that are taken there. -/
theorem Parser.run_preceded (before rest filename filename' : String) (id id' : Nat)
    (saved : List Mark) (call : Call) :
    let c := Cursor.start ⟨id, rest⟩ filename
    let place : Place := ⟨before.utf8ByteSize, 1 + before.toList.count '\n',
      1 + (before.toList.rtakeWhile (· ≠ '\n')).length⟩
    let c' : Cursor := ⟨⟨id', before ++ rest⟩, filename', ⟨place, rest.toList⟩, saved⟩
    ∃ result mark recorded memo memo',
      empty.run c call.rule = .ok (result, ⟨⟨memo, recorded⟩, c.moveTo mark⟩) ∧
      empty.run c' call.rule = .ok (result,
        ⟨⟨memo', recorded.map (Diagnostic.preceded before.toList filename')⟩,
          c'.moveTo (mark.preceded before.toList)⟩) := by
  intro c place c'
  have hmark : c'.mark = c.mark.preceded before.toList := by
    simp [c', c, place, Cursor.start, Mark.start, Mark.preceded, Place.preceded, Place.start]
  have hon : c'.mark.On c'.source.text := by
    refine ⟨before.toList, String.toList_append, ?_⟩
    rw [hmark]
    exact Place.preceded_start before.toList
  obtain ⟨memo, -, -, hrun⟩ :=
    @Parser.run_call .empty c MemoTable.faithful_empty (.start rest) call
  obtain ⟨memo', -, -, hrun'⟩ := @Parser.run_call .empty c' MemoTable.faithful_empty hon call
  obtain ⟨-, hreading⟩ := (translates before.toList filename').call call
    ⟨filename, .start rest, []⟩ le_rfl
  have hcall : call.reading c' = ((call.reading c).1,
      (call.reading c).2.preceded before.toList filename') := by
    rw [Call.reading, hmark]
    exact hreading
  rw [hcall] at hrun'
  exact ⟨_, _, _, memo, memo', hrun, hrun'⟩

end Grammar

end DeclLang
