import DeclLang.Proofs.Grammar.Diagnostics
import DeclLang.Proofs.Grammar.MemberBlock
import DeclLang.Proofs.Grammar.Outcome
import DeclLang.Proofs.Grammar.Session

/-!
# Where a member block ends

The lines of a block stand at one indentation, and the text behind them decides how the block ends,
by the indentation of the next line if there is one:

* a deeper line spoils the definition: a diagnostic is recorded behind its indentation, and the
  cursor goes back to where the definition began;
* a line that is less deep, but indented, ends the block and its indentation is passed;
* anything else ends the block where it is: no other line, a line that is not indented, or one at
  the width of the block on which no member stands.

The loop reads line by line (`run_members_lines`), and what it does behind the last one is seen from
the text there (`run_line_deeper`, `run_line_shallower`, `run_attempt_line_over`).  A plain reader
is followed exactly, with the marks and the diagnostics; a session does what it does
(`Session.run_typeDefinition_block`).
-/

namespace DeclLang

namespace Grammar

open Text Scanner

variable {α : Type} {r : Reading} {cs rest text : List Char}

/-! ### Running on a given text -/

/-- The reader behind a text. -/
def Reading.after (r : Reading) (text rest : List Char) : Reading :=
  { r with mark := ⟨r.mark.place.afterAll text, rest⟩ }

@[simp] theorem Reading.after_after (r : Reading) (text text' rest rest' : List Char) :
    (r.after text rest).after text' rest' = r.after (text ++ text') rest' := by
  simp only [Reading.after, Place.afterAll_append]

theorem Reading.after_nil (hr : r.mark.rest = rest) : r.after [] rest = r := by
  subst hr
  rfl

/-- A rule that is mute has done nothing but to pass the text that it was found to read. -/
theorem Reads.run_eq {x : OptionT ReadM α} {found : Option α}
    (h : Reads x (text ++ rest) found rest) (hadvances : Advances x.run) (hmute : Mute x.run)
    (hr : r.mark.rest = text ++ rest) :
    ReadM.run x.run r = (found, r.after text rest) := by
  obtain ⟨⟨filename, mark, recorded⟩, hrun, rfl⟩ := h r hr
  obtain ⟨cs, -, hpass, hname, -⟩ := hadvances r
  have hrecorded := hmute r
  rw [hrun] at hpass hname hrecorded ⊢
  obtain rfl : cs = text := List.append_cancel_right (hpass.1.symm.trans hr)
  have hmark : mark = ⟨r.mark.place.afterAll cs, mark.rest⟩ :=
    hpass.unique (Mark.passes_of_rest_eq hpass.1)
  cases hname
  cases hrecorded
  rw [Reading.after, ← hmark]

theorem run_typeName_after {gap : List Char} {name : String} (hgap : Gap gap)
    (hname : isWord isTypeStart name = true) (hrest : Stops isNameChar rest)
    (hr : r.mark.rest = gap ++ (name.toList ++ rest)) :
    ReadM.run typeName.run r = (some name, r.after (gap ++ name.toList) rest) := by
  have hspace : unblank (gap ++ (name.toList ++ rest)) = name.toList ++ rest :=
    unblank_gap hgap (stops_typeName hname rest)
  refine Reads.run_eq ?_ advances.typeName.2 .typeName (by rw [hr, List.append_assoc])
  rw [List.append_assoc]
  exact Reads.typeName_some hname hspace hrest

theorem run_indent_nextLine {tail pad more : List Char} (h : NextLine tail pad more r.mark.rest)
    (hpad : pad ≠ []) :
    ReadM.run indent.run r = (some pad.length, r.after (tail ++ '\n' :: pad) more) := by
  rw [ReadM.run_indent, Mark.indent?_nextLine h hpad]
  rfl

/-! ### Lines -/

section Lines

variable {width : Nat} {block : Option Nat}

/-- A line of the block is read as its member. -/
theorem run_line_member (l : MemberLine width) (hblock : ∀ w ∈ block, w = width)
    (hr : r.mark.rest = l.text ++ rest) (hrest : Stops isNameChar rest) :
    ReadM.run (line block).run r = (some (.member width l.member), r.after l.text rest) := by
  have hnext := l.nextLine rest
  rw [← hr] at hnext
  have hdeeper : block.any (· < l.pad.length) = false := by
    cases block with
    | none => rfl
    | some w => simp [hblock w rfl, l.length_pad]
  have hshallower : block.any (l.pad.length < ·) = false := by
    cases block with
    | none => rfl
    | some w => simp [hblock w rfl, l.length_pad]
  have htag_stops : Stops isNameChar (l.gap ++ (l.payload.toList ++ rest)) :=
    l.gap_gap.stops_isNameChar l.gap_ne_nil _
  rw [line, ReadM.run_next, run_indent_nextLine hnext l.pad_ne_nil]
  simp only [hdeeper, hshallower, Bool.false_eq_true, ↓reduceIte]
  rw [ReadM.run_next, run_typeName_after l.gap_lead l.isWord_tag htag_stops rfl]
  simp only
  rw [ReadM.run_next, run_typeName_after l.gap_gap l.isWord_payload hrest rfl]
  simp only [Reading.after_after, l.length_pad, MemberLine.text, MemberLine.indentation,
    List.append_assoc, List.cons_append]
  rfl

/-- A deeper line is reported behind its indentation. -/
theorem run_line_deeper {tail pad more : List Char} (h : NextLine tail pad more r.mark.rest)
    (hpad : width < pad.length) :
    ReadM.run (line (some width)).run r = (some .deeper,
      { r.after (tail ++ '\n' :: pad) more with
        recorded := r.recorded ++ [⟨.unexpectedIndent,
          ⟨r.filename, r.mark.place.afterAll (tail ++ '\n' :: pad)⟩⟩] }) := by
  have hne : pad ≠ [] := List.ne_nil_of_length_pos (by omega)
  rw [line, ReadM.run_next, run_indent_nextLine h hne]
  simp only [Option.any_some, hpad, decide_true, ↓reduceIte]
  rfl

/-- A line that is less deep is passed up to its first word. -/
theorem run_line_shallower {tail pad more : List Char} (h : NextLine tail pad more r.mark.rest)
    (hne : pad ≠ []) (hpad : pad.length < width) :
    ReadM.run (line (some width)).run r =
      (some .shallower, r.after (tail ++ '\n' :: pad) more) := by
  rw [line, ReadM.run_next, run_indent_nextLine h hne]
  simp only [Option.any_some, hpad, hpad.not_gt, decide_true, decide_false, Bool.false_eq_true,
    ↓reduceIte]
  rfl

/-- Two type names come next, with blanks between them. -/
def BeginsMember (cs : List Char) : Prop :=
  ∃ lead tag gap payload more, Gap lead ∧ isWord isTypeStart tag = true ∧ Gap gap ∧ gap ≠ [] ∧
    isWord isTypeStart payload = true ∧
      cs = lead ++ (tag.toList ++ (gap ++ (payload.toList ++ more)))

/-- No line comes next, or one that is not indented, or one at the width of the block that is no
member of it. -/
def Over (width : Nat) (cs : List Char) : Prop :=
  ∀ tail pad more, NextLine tail pad more cs →
    pad = [] ∨ pad.length = width ∧ ¬ BeginsMember more

theorem Over.of_nextLine {tail pad more : List Char} (h : NextLine tail pad more cs)
    (hpad : pad = [] ∨ pad.length = width ∧ ¬ BeginsMember more) : Over width cs := by
  intro tail' pad' more' h'
  obtain ⟨rfl, rfl⟩ := h.unique h'
  exact hpad

/-- Behind the block there is no line of it, and the attempt to read one leaves no trace. -/
theorem run_attempt_line_over (h : Over width r.mark.rest) :
    ReadM.run (attempt (line (some width))).run r = (none, r) := by
  rw [ReadM.run_attempt]
  rcases hrun : ReadM.run (line (some width)).run r with ⟨_ | found, r'⟩
  · obtain ⟨-, -, -, hname, -⟩ := (advances.line (some width)).2 r
    rw [hrun] at hname
    obtain hrecorded | ⟨hdeeper, -⟩ := recorded_of_line hrun
    · obtain ⟨filename, mark, recorded⟩ := r'
      cases hname
      cases hrecorded
      rfl
    · cases hdeeper
  -- What has been read is a line that the text was said not to have.
  obtain ⟨text, hpass, hfound⟩ := Covers.line (some width) r found r' hrun
  exfalso
  rw [hpass.1] at h
  match found with
  | .member width' m =>
    obtain ⟨-, l, rfl, -⟩ := hfound
    rcases h _ _ _ (l.nextLine r'.mark.rest) with hnil | ⟨-, hmember⟩
    · exact l.pad_ne_nil hnil
    · exact hmember ⟨l.lead, l.tag, l.gap, l.payload, r'.mark.rest, l.gap_lead, l.isWord_tag,
        l.gap_gap, l.gap_ne_nil, l.isWord_payload, rfl⟩
  | .shallower =>
    obtain ⟨w, hw, tail, pad, hnext, hne, hlt⟩ := hfound
    obtain rfl : width = w := Option.some.inj hw
    rcases h _ _ _ hnext with hnil | ⟨hwidth, -⟩
    · exact hne hnil
    · omega
  | .deeper =>
    obtain ⟨w, hw, tail, pad, hnext, hlt⟩ := hfound
    obtain rfl : width = w := Option.some.inj hw
    rcases h _ _ _ hnext with rfl | ⟨hwidth, -⟩
    · cases hlt
    · omega

/-! ### Blocks -/

/-- One turn of the loop. -/
theorem run_members_succ (block : Option Nat) (k : Nat) (r : Reading) :
    ReadM.run (members block (k + 1)).run r =
      match ReadM.run (attempt (line block)).run r with
      | (some (.member w m), r') =>
        ((ReadM.run (members (some w) k).run r').1.map (m :: ·),
          (ReadM.run (members (some w) k).run r').2)
      | (some .deeper, r') => (none, r')
      | (some .shallower, r') => (some [], r')
      | (none, r') => (some [], r') := by
  rw [members_succ, ReadM.run_next, ReadM.run_optional]
  rcases ReadM.run (attempt (line block)).run r with ⟨_ | found, r'⟩
  · rfl
  cases found with
  | member w m =>
    simp only
    rw [ReadM.run_next]
    rcases ReadM.run (members (some w) k).run r' with ⟨_ | ms, r''⟩ <;> rfl
  | deeper => rfl
  | shallower => rfl

/-- **The loop reads the lines of a block** and goes on behind them. -/
theorem run_members_lines (l : MemberLine width) (ls : List (MemberLine width))
    (hblock : ∀ w ∈ block, w = width) (hrest : Stops isNameChar rest)
    (hr : r.mark.rest = (l :: ls).flatMap MemberLine.text ++ rest) (k : Nat) :
    ReadM.run (members block (k + (l :: ls).length)).run r =
      ((ReadM.run (members (some width) k).run
          (r.after ((l :: ls).flatMap MemberLine.text) rest)).1.map
            ((l :: ls).map MemberLine.member ++ ·),
        (ReadM.run (members (some width) k).run
          (r.after ((l :: ls).flatMap MemberLine.text) rest)).2) := by
  induction ls generalizing l block r with
  | nil =>
    have hline := run_line_member l hblock (by simpa using hr) hrest
    rw [List.length_singleton, run_members_succ, ReadM.run_attempt, hline]
    simp
  | cons l' ls ih =>
    have hmore : Stops isNameChar ((l' :: ls).flatMap MemberLine.text ++ rest) := by
      rw [List.flatMap_cons, List.append_assoc]
      exact l'.stops_text _
    have hline := run_line_member l hblock (by simpa using hr) hmore
    have hsame : ∀ w ∈ some width, w = width := fun w hw => (Option.some.inj hw).symm
    have hothers := @ih (r.after l.text ((l' :: ls).flatMap MemberLine.text ++ rest)) _ l' hsame rfl
    rw [List.length_cons, ← Nat.add_assoc, run_members_succ, ReadM.run_attempt, hline]
    simp only [hothers, Reading.after_after, Option.map_map]
    rfl

end Lines

/-! ### Definitions -/

/-- The text of an algebraic type up to its members. -/
def headingText (name : String) : List Char := "type ".toList ++ (name.toList ++ [':'])

/-- The members that the loop returns decide what becomes of the definition. -/
theorem run_typeDefinition_heading {name : String} (hname : isWord isTypeStart name = true)
    (hr : r.mark.rest = headingText name ++ cs) :
    ReadM.run typeDefinition.run r =
      match ReadM.run (members none (cs.length + 1)).run (r.after (headingText name) cs) with
      | (some (m :: ms), r') => (some (.ofAlgebraic ⟨name, m :: ms⟩), r')
      | (_, r') => (none, { r' with mark := r.mark }) := by
  have hkeyword : ReadM.run (keyword "type").run r =
      (some (), r.after "type".toList (' ' :: (name.toList ++ ':' :: cs))) :=
    Reads.run_eq (Reads.keyword_some rfl) (advances.keyword "type").2 (.keyword "type")
      (by rw [hr]; simp [headingText])
  have hnamed : ∀ r : Reading, r.mark.rest = ' ' :: (name.toList ++ ':' :: cs) →
      ReadM.run typeName.run r = (some name, r.after (' ' :: name.toList) (':' :: cs)) :=
    fun r hr =>
      @run_typeName_after r (':' :: cs) [' '] name (by decide) hname (stops_cons.2 (by decide)) hr
  have hcolon (r : Reading) (hr : r.mark.rest = ':' :: cs) :
      ReadM.run (optional typeName).run r = (some none, r) ∧
        ReadM.run (expect ":" .expectedColon).run r = (some (), r.after [':'] cs) := by
    have habsent : ReadM.run typeName.run r = (none, r.after [] (':' :: cs)) :=
      Reads.run_eq (Reads.typeName_none rfl (stops_cons.2 (by decide))) advances.typeName.2
        .typeName hr
    have hsign : ReadM.run (keyword ":").run r = (some (), r.after [':'] cs) :=
      Reads.run_eq (Reads.keyword_some rfl) (advances.keyword ":").2 (.keyword ":") hr
    rw [ReadM.run_optional, habsent, Reading.after_nil hr, expect, ReadM.run_orElse, hsign]
    exact ⟨rfl, rfl⟩
  have hbound (r : Reading) : ReadM.run bound.run r = (some (r.mark.rest.length + 1), r) := rfl
  rw [typeDefinition, ReadM.run_attempt, ReadM.run_next, hkeyword]
  simp only
  rw [ReadM.run_next, ReadM.run_orElse, hnamed _ rfl]
  simp only [Reading.after_after]
  rw [ReadM.run_next, (hcolon _ rfl).1]
  simp only
  rw [ReadM.run_next, (hcolon _ rfl).2]
  simp only [Reading.after_after]
  rw [ReadM.run_next, hbound]
  simp only
  rw [ReadM.run_next]
  have hheading : headingText name = "type".toList ++ ' ' :: name.toList ++ [':'] := by
    simp [headingText]
  rw [hheading]
  simp only [Reading.after]
  rcases ReadM.run (members none (cs.length + 1)).run _ with ⟨_ | ms, r'⟩
  · rfl
  · cases ms <;> rfl

/-- The text of an algebraic type: its heading, and its lines at one indentation. -/
def blockText {width : Nat} (name : String) (lines : List (MemberLine width)) : List Char :=
  headingText name ++ lines.flatMap MemberLine.text

section Block

variable {name : String} {width : Nat} {lines : List (MemberLine width)} {tail pad more : List Char}

/-- A definition is read up to the last line of its block, and goes on there. -/
theorem run_typeDefinition_lines (hname : isWord isTypeStart name = true) (hlines : lines ≠ [])
    (hrest : Stops isNameChar rest) (hr : r.mark.rest = blockText name lines ++ rest) :
    ∃ k, ReadM.run typeDefinition.run r =
      match ReadM.run (members (some width) (k + 1)).run (r.after (blockText name lines) rest) with
      | (some ms, r') => (some (.ofAlgebraic ⟨name, lines.map MemberLine.member ++ ms⟩), r')
      | (none, r') => (none, { r' with mark := r.mark }) := by
  cases lines with
  | nil => exact absurd rfl hlines
  | cons l ls =>
    -- There are more characters than lines, so the bound is not spent.
    have hlength : (l :: ls).length ≤ ((l :: ls).flatMap MemberLine.text).length :=
      length_le_length_flatMap (by simp [MemberLine.text, MemberLine.indentation]) _
    obtain ⟨k, hk⟩ := Nat.exists_eq_add_of_le hlength
    refine ⟨k + rest.length, ?_⟩
    rw [blockText, List.append_assoc] at hr
    have hloop := @run_members_lines (r.after (headingText name)
      ((l :: ls).flatMap MemberLine.text ++ rest)) rest width none l ls (by simp) hrest rfl
      (k + rest.length + 1)
    have hbound : ((l :: ls).flatMap MemberLine.text ++ rest).length + 1 =
        k + rest.length + 1 + (l :: ls).length := by
      rw [List.length_append, hk]
      omega
    rw [run_typeDefinition_heading hname hr, hbound, hloop, Reading.after_after, ← blockText]
    rcases ReadM.run (members (some width) (k + rest.length + 1)).run
      (r.after (blockText name (l :: ls)) rest) with ⟨_ | ms, r'⟩ <;> rfl

theorem run_typeDefinition_deeper (hname : isWord isTypeStart name = true) (hlines : lines ≠ [])
    (hrest : Stops isNameChar rest) (hr : r.mark.rest = blockText name lines ++ rest)
    (h : NextLine tail pad more rest) (hpad : width < pad.length) :
    ReadM.run typeDefinition.run r = (none, { r with
      recorded := r.recorded ++ [⟨.unexpectedIndent, ⟨r.filename,
        r.mark.place.afterAll (blockText name lines ++ (tail ++ '\n' :: pad))⟩⟩] }) := by
  obtain ⟨k, hrun⟩ := run_typeDefinition_lines hname hlines hrest hr
  rw [hrun, run_members_succ, ReadM.run_attempt, run_line_deeper h hpad]
  simp only [Reading.after, Place.afterAll_append]

theorem run_typeDefinition_shallower (hname : isWord isTypeStart name = true) (hlines : lines ≠ [])
    (hrest : Stops isNameChar rest) (hr : r.mark.rest = blockText name lines ++ rest)
    (h : NextLine tail pad more rest) (hne : pad ≠ []) (hpad : pad.length < width) :
    ReadM.run typeDefinition.run r =
      (some (.ofAlgebraic ⟨name, lines.map MemberLine.member⟩),
        r.after (blockText name lines ++ (tail ++ '\n' :: pad)) more) := by
  obtain ⟨k, hrun⟩ := run_typeDefinition_lines hname hlines hrest hr
  rw [hrun, run_members_succ, ReadM.run_attempt, run_line_shallower h hne hpad]
  simp only [Reading.after_after, List.append_nil]

theorem run_typeDefinition_over (hname : isWord isTypeStart name = true) (hlines : lines ≠ [])
    (hrest : Stops isNameChar rest) (hr : r.mark.rest = blockText name lines ++ rest)
    (h : Over width rest) :
    ReadM.run typeDefinition.run r =
      (some (.ofAlgebraic ⟨name, lines.map MemberLine.member⟩),
        r.after (blockText name lines) rest) := by
  obtain ⟨k, hrun⟩ := run_typeDefinition_lines hname hlines hrest hr
  rw [hrun, run_members_succ, run_attempt_line_over h]
  simp only [List.append_nil]

end Block

/-! ### Sessions -/

/-- **Indentation decides where a block ends.**  In a session, the text from a cursor is an
algebraic type and goes on with `rest`, which does not go on with the last name.

If another line comes next and it is deeper than the block then the rule fails, with one diagnostic
behind its indentation, and the cursor is where it was.  Otherwise the type is returned with the
members of its lines and without a diagnostic: the cursor is behind the indentation of the next line
if that is less deep, but not empty, and behind the block if the next line is not indented or no
member, or if no line comes next. -/
theorem Session.run_typeDefinition_block {files : Nat → Source × String} {s : Session}
    (h : (Session.start files).Reachable s) (i : Nat) {name : String}
    (hname : isWord isTypeStart name = true) {width : Nat} {lines : List (MemberLine width)}
    (hlines : lines ≠ []) {rest : List Char} (hrest : Stops isNameChar rest)
    (htext : (s.cursors i).mark.rest = blockText name lines ++ rest) :
    (∀ tail pad more, NextLine tail pad more rest →
      (width < pad.length → ∃ memo, s.parser.run (s.cursors i) typeDefinition =
        .ok (none, ⟨⟨memo, s.parser.recorded ++ [⟨.unexpectedIndent, ⟨(s.cursors i).filename,
          (s.cursors i).mark.place.afterAll (blockText name lines ++ (tail ++ '\n' :: pad))⟩⟩]⟩,
          s.cursors i⟩)) ∧
      (pad ≠ [] → pad.length < width → ∃ memo, s.parser.run (s.cursors i) typeDefinition =
        .ok (some (.ofAlgebraic ⟨name, lines.map MemberLine.member⟩),
          ⟨⟨memo, s.parser.recorded⟩, (s.cursors i).moveTo
            ⟨(s.cursors i).mark.place.afterAll (blockText name lines ++ (tail ++ '\n' :: pad)),
              more⟩⟩)) ∧
      (pad = [] ∨ pad.length = width ∧ ¬ BeginsMember more →
        ∃ memo, s.parser.run (s.cursors i) typeDefinition =
          .ok (some (.ofAlgebraic ⟨name, lines.map MemberLine.member⟩),
            ⟨⟨memo, s.parser.recorded⟩, (s.cursors i).moveTo
              ⟨(s.cursors i).mark.place.afterAll (blockText name lines), rest⟩⟩))) ∧
    ((∀ tail pad more, ¬ NextLine tail pad more rest) →
      ∃ memo, s.parser.run (s.cursors i) typeDefinition =
        .ok (some (.ofAlgebraic ⟨name, lines.map MemberLine.member⟩),
          ⟨⟨memo, s.parser.recorded⟩, (s.cursors i).moveTo
            ⟨(s.cursors i).mark.place.afterAll (blockText name lines), rest⟩⟩)) := by
  have hsound := Sound.of_reachable h
  obtain ⟨memo, -, -, hrun⟩ :=
    Parser.run_call hsound.faithful (hsound.within i).mark .typeDefinition
  have hends (hover : Over width rest) : ∃ memo, s.parser.run (s.cursors i) typeDefinition =
      .ok (some (.ofAlgebraic ⟨name, lines.map MemberLine.member⟩),
        ⟨⟨memo, s.parser.recorded⟩, (s.cursors i).moveTo
          ⟨(s.cursors i).mark.place.afterAll (blockText name lines), rest⟩⟩) := by
    have hread : Call.typeDefinition.reading (s.cursors i) = (some (.ofAlgebraic _), _) :=
      run_typeDefinition_over hname hlines hrest htext hover
    rw [hread] at hrun
    simp only [Reading.after, List.append_nil] at hrun
    exact ⟨memo, hrun⟩
  refine ⟨fun tail pad more hnext => ⟨fun hpad => ⟨memo, ?_⟩, fun hne hpad => ⟨memo, ?_⟩,
    fun hpad => hends (.of_nextLine hnext hpad)⟩, fun hnone => hends fun tail pad more hnext =>
      absurd hnext (hnone tail pad more)⟩
  · have hread : Call.typeDefinition.reading (s.cursors i) = (none, _) :=
      run_typeDefinition_deeper hname hlines hrest htext hnext hpad
    rw [hread] at hrun
    exact hrun
  · have hread : Call.typeDefinition.reading (s.cursors i) = (some (.ofAlgebraic _), _) :=
      run_typeDefinition_shallower hname hlines hrest htext hnext hne hpad
    rw [hread] at hrun
    simp only [Reading.after, List.append_nil] at hrun
    exact hrun

/-- A line that is deeper than the only one of its block. -/
theorem Session.run_typeDefinition_block_deeper : ∃ (s : Session) (lines : List (MemberLine 2)),
    (start fun _ => (⟨0, "type T:\n  I Int\n    F"⟩, "f")).Reachable s ∧
    lines.map MemberLine.member = [⟨"I", "Int"⟩] ∧
    (s.cursors 0).mark.rest = blockText "T" lines ++ "\n    F".toList ∧
    ∃ memo, s.parser.run (s.cursors 0) typeDefinition =
      .ok (none, ⟨⟨memo, [⟨.unexpectedIndent, ⟨"f", ⟨20, 3, 5⟩⟩⟩]⟩, s.cursors 0⟩) := by
  let l : MemberLine 2 :=
    { tail := [], pad := [' ', ' '], lead := [], tag := "I", gap := [' '], payload := "Int"
      isLineBlank_tail := List.forall_mem_nil _
      isPad_pad := List.all_eq_true.1 rfl
      length_pad := rfl
      pad_ne_nil := by decide
      gap_lead := .nil
      stops_lead := stops_nil _
      isWord_tag := by decide
      gap_gap := by decide
      gap_ne_nil := by decide
      isWord_payload := by decide }
  have hnext : NextLine [] [' ', ' ', ' ', ' '] ['F'] "\n    F".toList :=
    ⟨List.forall_mem_nil _, List.all_eq_true.1 rfl, stops_cons.2 (by decide), by decide⟩
  have hstart : (start fun _ => (⟨0, "type T:\n  I Int\n    F"⟩, "f")).Reachable
      (start fun _ => (⟨0, "type T:\n  I Int\n    F"⟩, "f")) := .refl
  have hblock := @run_typeDefinition_block _ _ hstart 0 "T" (by decide) 2 [l] (by decide)
    "\n    F".toList (hnext.eq ▸ stops_cons.2 (by decide)) (by decide)
  obtain ⟨memo, hrun⟩ := (hblock.1 _ _ _ hnext).1 (by decide)
  have hplace :
      ((start fun _ => (⟨0, "type T:\n  I Int\n    F"⟩, "f")).cursors 0).mark.place.afterAll
        (blockText "T" [l] ++ ([] ++ ['\n', ' ', ' ', ' ', ' '])) = ⟨20, 3, 5⟩ := by decide
  rw [hplace] at hrun
  exact ⟨_, [l], hstart, rfl, by decide, memo, hrun⟩

end Grammar

end DeclLang
