import DeclLang.Proofs.Grammar.Location
import DeclLang.Proofs.Grammar.Session
import DeclLang.Proofs.Module.Stretch

/-!
# Every location is true

Lines and columns are counted on several ways: token by token, over the end of a line, back to where
a transaction began, and by taking up a mark from the memo table.  Whatever way a reader has come,
it stands at a mark of its text, and what it records is located at such marks
(`isIn_of_reading`).  So the location of a diagnostic names the file, and a place in its text whose
numbers are those of the text before it (`Module.location_isIn`), whether the diagnostic

* is the reason to refuse a text,
* is kept in the module of a text, or
* is recorded by a call of a rule in the middle of a session.

Numbers of 32 bits are large enough for texts that are shorter than the largest of them.
-/

namespace DeclLang

open Grammar Text

/-! ### Sessions -/

namespace Text.Cursor

/-- A movement leaves a cursor on its source, under its file name. -/
theorem Move.source_filename_eq {c c' : Cursor} (h : c.Move c') :
    c'.source = c.source ∧ c'.filename = c.filename := by
  cases h with
  | skipSpace => exact c.skipSpace_passes.source_filename_eq
  | readIndent hread => exact (readIndent_passes hread).source_filename_eq
  | readKeyword hread => exact (c.readKeyword_passes hread).source_filename_eq
  | readWord hread => exact (c.readWord_passes hread).source_filename_eq
  | read hpeek => exact (c.read_passes hpeek).source_filename_eq
  | begin => exact ⟨rfl, rfl⟩
  | commit h =>
    unfold Cursor.commit at h
    split at h <;> cases h
    exact ⟨rfl, rfl⟩
  | rollback h =>
    unfold Cursor.rollback at h
    split at h <;> cases h
    exact ⟨rfl, rfl⟩

end Text.Cursor

namespace Grammar.Session

variable {files : Nat → Source × String} {s s' : Session}

/-- Each cursor is on its source, under its file name. -/
def OnFiles (files : Nat → Source × String) (s : Session) : Prop :=
  ∀ i, (s.cursors i).source = (files i).1 ∧ (s.cursors i).filename = (files i).2

namespace OnFiles

theorem setCursor (h : s.OnFiles files) {i : Nat} {c : Cursor}
    (hc : c.source = (s.cursors i).source ∧ c.filename = (s.cursors i).filename) :
    (s.setCursor i c).OnFiles files := by
  intro j
  by_cases hj : j = i
  · subst hj
    simpa [Session.setCursor, hc] using h j
  · simpa [Session.setCursor, hj] using h j

theorem step (h : s.OnFiles files) (hsound : s.Sound) (hstep : s.Step s') : s'.OnFiles files := by
  cases hstep with
  | call i call hrun =>
    obtain ⟨memo, -, -, hcall⟩ := Parser.run_call hsound.faithful (hsound.within i).mark call
    rw [hcall] at hrun
    cases hrun
    exact h.setCursor ⟨rfl, rfl⟩
  | move i hmove => exact h.setCursor hmove.source_filename_eq
  | take => exact h

theorem of_reachable (h : (Session.start files).Reachable s) : s.OnFiles files := by
  induction h with
  | refl => exact fun i => ⟨rfl, rfl⟩
  | tail hreach hstep ih => exact ih.step (Sound.of_reachable hreach) hstep

end OnFiles

/-- What a call records in a session is located in the file of its cursor. -/
theorem isIn_of_call (h : (start files).Reachable s) (i : Nat) (call : Call) :
    ∃ result after new, s.parser.run (s.cursors i) call.rule = .ok (result, after) ∧
      after.parser.recorded = s.parser.recorded ++ new ∧
      ∀ d ∈ new, d.location.IsIn (files i).1.text (files i).2 := by
  have hsound := Sound.of_reachable h
  obtain ⟨hsource, hname⟩ := OnFiles.of_reachable h i
  obtain ⟨memo, -, -, hrun⟩ := Parser.run_call hsound.faithful (hsound.within i).mark call
  obtain ⟨new, hrecorded, hnew⟩ := isIn_of_reading (r := ⟨_, _, []⟩) (hsound.within i).mark
  refine ⟨_, _, new, hrun, congrArg _ hrecorded, fun d hd => ?_⟩
  rw [← hsource, ← hname]
  exact hnew d hd

end Grammar.Session

/-! ### Modules -/

section

variable {filename text : String} {m m' : Mark}

/-- What a declaration records is located in its text, and the text goes on behind it. -/
theorem isIn_of_declaration {d : Option Declaration} {recorded : List Diagnostic} (hm : m.On text)
    (h : ReadM.run declaration.run ⟨filename, m, []⟩ = (d, ⟨filename, m', recorded⟩)) :
    m'.On text ∧ ∀ e ∈ recorded, e.location.IsIn text filename := by
  obtain ⟨cs, -, hpass, -⟩ := advances.declaration.2 ⟨filename, m, []⟩
  obtain ⟨new, hrecorded, hnew⟩ := @isIn_of_reading .declaration ⟨filename, m, []⟩ text hm
  change (ReadM.run declaration.run _).2.recorded = _ at hrecorded
  rw [h] at hpass hrecorded
  obtain rfl : recorded = new := hrecorded
  exact ⟨hm.passes hpass, hnew⟩

/-- What a stretch of a text records is located in it. -/
theorem Stretch.isIn {parts : List (Declaration × List Diagnostic)}
    (h : Stretch filename m parts m') (hm : m.On text) :
    m'.On text ∧ ∀ d ∈ parts.flatMap Prod.snd, d.location.IsIn text filename := by
  induction h with
  | nil m => exact ⟨hm.skipSpace, by simp⟩
  | cons hrun _ ih =>
    obtain ⟨hm', hrecorded⟩ := isIn_of_declaration hm.skipSpace hrun
    obtain ⟨hm'', hothers⟩ := ih hm'
    refine ⟨hm'', fun d hd => ?_⟩
    rcases List.mem_append.1 (List.flatMap_cons ▸ hd) with hd | hd
    · exact hrecorded d hd
    · exact hothers d hd

end

namespace Module

theorem isIn_of_parse_error {text filename : String} {e : Diagnostic}
    (h : parse text filename = .error e) : e.location.IsIn text filename := by
  obtain ⟨parts, m, recorded, hstretch, -, hrun, rfl⟩ := parse_eq_error_iff.1 h
  obtain ⟨hm, hkept⟩ := hstretch.isIn (.start text)
  obtain ⟨-, hrecorded⟩ := isIn_of_declaration hm hrun
  cases hall : recorded ++ parts.flatMap Prod.snd with
  | nil => exact hm.isIn filename
  | cons d ds =>
    have hd : d ∈ recorded ++ parts.flatMap Prod.snd := hall ▸ List.mem_cons_self
    exact (List.mem_append.1 hd).elim (hrecorded d) (hkept d)

theorem isIn_of_parse_ok {text filename : String} {module : Module}
    (h : parse text filename = .ok module) :
    ∀ d ∈ module.diagnostics, d.location.IsIn text filename := by
  obtain ⟨parts, hparts, rfl⟩ := parse_eq_ok_iff.1 h
  obtain ⟨m, hstretch, -⟩ := declares_iff.1 hparts
  exact (hstretch.isIn (.start text)).2

/-- **Every location is true.**  Whether it is that of an error, of a diagnostic that is kept, or of
one recorded by a call after any steps of a session, it names the file and a place between the
characters of its text, with the line and the column of that place. -/
theorem location_isIn :
    (∀ text filename,
      (∀ e, parse text filename = .error e → e.location.IsIn text filename) ∧
      ∀ module, parse text filename = .ok module →
        ∀ d ∈ module.diagnostics, d.location.IsIn text filename) ∧
    (∀ files s, (Session.start files).Reachable s → ∀ i call,
      ∃ result after new, s.parser.run (s.cursors i) (Call.rule call) = .ok (result, after) ∧
        after.parser.recorded = s.parser.recorded ++ new ∧
        ∀ d ∈ new, d.location.IsIn (files i).1.text (files i).2) ∧
    ∀ (l : Location) text filename, l.IsIn text filename → text.utf8ByteSize < 2 ^ 32 - 1 →
      l.place.line < 2 ^ 32 ∧ l.place.column < 2 ^ 32 :=
  ⟨fun _ _ => ⟨fun _ => isIn_of_parse_error, fun _ => isIn_of_parse_ok⟩,
    fun _ _ h i call => Session.isIn_of_call h i call, fun _ _ _ h hsize => h.lt hsize⟩

/-- The bracket on the second line is not closed.  The line before it ends with a carriage return,
and a blank of three bytes stands before the bracket.  The session reads the same text, behind a
move of another cursor. -/
theorem location_isIn_second_line :
    ∃ l : Location, l = ⟨"f", ⟨19, 2, 10⟩⟩ ∧
      parse "f :: A\r\ng :: \u3000[B é" "f" = .error ⟨.expectedCloseBracket, l⟩ ∧
      l.IsIn "f :: A\r\ng :: \u3000[B é" "f" ∧ l.place.line < 2 ^ 32 ∧ l.place.column < 2 ^ 32 ∧
      ∃ s, (Session.start fun _ => (⟨0, "f :: A\r\ng :: \u3000[B é"⟩, "f")).Reachable s ∧
        ∃ result after new, s.parser.run (s.cursors 0) Call.signature.rule = .ok (result, after) ∧
          after.parser.recorded = s.parser.recorded ++ new ∧
          ∀ d ∈ new, d.location.IsIn "f :: A\r\ng :: \u3000[B é" "f" := by
  have h : parse "f :: A\r\ng :: \u3000[B é" "f" =
      .error ⟨.expectedCloseBracket, ⟨"f", ⟨19, 2, 10⟩⟩⟩ := by decide +kernel
  have hisIn := (location_isIn.1 _ _).1 _ h
  have hnumbers := location_isIn.2.2 _ _ _ hisIn (by decide +kernel)
  have hsession := Relation.ReflTransGen.single (Session.Step.move (s := Session.start fun _ =>
    (⟨0, "f :: A\r\ng :: \u3000[B é"⟩, "f")) 1
      (.readWord (Cursor.readWord_eq _ isVariableStart isNameChar)))
  exact ⟨_, rfl, h, hisIn, hnumbers.1, hnumbers.2, _, hsession,
    location_isIn.2.1 _ _ hsession 0 .signature⟩

end Module

end DeclLang
