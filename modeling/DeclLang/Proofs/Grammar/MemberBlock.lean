import DeclLang.Proofs.Grammar.Coverage
import DeclLang.Proofs.Grammar.Position
import DeclLang.Proofs.Text.LineBreak

/-!
# The lines of a member block

Each member of an algebraic type is read from a text of its own, a `MemberLine`: the end of the line
before, the indentation, which has one width for the whole block, and the tag and the payload.

Nothing but the indentation is measured, though.  A name passes whatever blanks come before it, line
feeds included, so there may be more blanks before the tag (`MemberLine.lead`) and any blanks
between the tag and the payload (`MemberLine.gap`).  That is all that can come between the layout
that is meant and the layout that is read: `MemberLine.aligned_iff` says when the members stand on
lines of their own, at one indentation and with their payloads beside them.
-/

namespace DeclLang

open Text

/-! ### Lines -/

/-- The text of a member in a block whose lines have this width. -/
structure MemberLine (width : Nat) where
  /-- What stands behind the last token of the line before. -/
  tail : List Char
  /-- The indentation. -/
  pad : List Char
  /-- More blanks before the tag. -/
  lead : List Char
  /-- The tag. -/
  tag : String
  /-- The blanks between the tag and the payload. -/
  gap : List Char
  /-- The payload. -/
  payload : String
  isLineBlank_tail : ∀ c ∈ tail, isLineBlank c = true
  isPad_pad : ∀ c ∈ pad, isPad c = true
  length_pad : pad.length = width
  pad_ne_nil : pad ≠ []
  gap_lead : Gap lead
  /-- The indentation is the longest one. -/
  stops_lead : Stops isPad lead
  isWord_tag : isWord isTypeStart tag = true
  gap_gap : Gap gap
  gap_ne_nil : gap ≠ []
  isWord_payload : isWord isTypeStart payload = true

namespace MemberLine

variable {width : Nat} (l : MemberLine width)

/-- The member. -/
def member : Member := ⟨l.tag, l.payload⟩

/-- The text before the tag. -/
def indentation : List Char := l.tail ++ '\n' :: (l.pad ++ l.lead)

/-- The text. -/
def text : List Char := l.indentation ++ (l.tag.toList ++ (l.gap ++ l.payload.toList))

/-- A name ends before a line. -/
theorem stops_text (more : List Char) : Stops isNameChar (l.text ++ more) := by
  have hgap : Gap (l.tail ++ ['\n']) := by
    refine Gap.append (fun c hc => isBlank_of_isLineBlank (l.isLineBlank_tail c hc)) ?_
    decide
  have h := hgap.stops_isNameChar (by simp) (l.pad ++ (l.lead ++ (l.tag.toList ++
    (l.gap ++ (l.payload.toList ++ more)))))
  simpa [text, indentation] using h

theorem nextLine (more : List Char) :
    NextLine l.tail l.pad (l.lead ++ (l.tag.toList ++ (l.gap ++ (l.payload.toList ++ more))))
      (l.text ++ more) := by
  refine ⟨l.isLineBlank_tail, l.isPad_pad, ?_, by simp [text, indentation]⟩
  cases hlead : l.lead with
  | nil => exact (stops_typeName l.isWord_tag _).mono fun _ hc => isBlank_of_isPad hc
  | cons c cs => exact stops_cons.2 (stops_cons.1 (hlead ▸ l.stops_lead))

end MemberLine

/-- What comes behind a block is passed if it is the indentation of a less deep line. -/
def Dedent (width : Nat) (cs : List Char) : Prop :=
  cs = [] ∨ ∃ tail pad, NextLine tail pad [] cs ∧ pad ≠ [] ∧ pad.length < width

/-- The text before the members of an algebraic type. -/
def Heading (name : String) (cs : List Char) : Prop :=
  isWord isTypeStart name = true ∧ ∃ gap gap' gap'', Gap gap ∧ Gap gap' ∧ Gap gap'' ∧
    cs = gap ++ ("type".toList ++ (gap' ++ (name.toList ++ (gap'' ++ [':']))))

/-! ### Layout -/

/-- The characters behind the last line feed. -/
def Text.lastLine (cs : List Char) : List Char := cs.rtakeWhile (· ≠ '\n')

theorem Text.lastLine_append_lineFeed (cs ds : List Char) :
    lastLine (cs ++ '\n' :: ds) = lastLine ds := by
  induction ds using List.reverseRecOn with
  | nil => simp [lastLine]
  | append_singleton ds d ih =>
    rw [← List.cons_append, ← List.append_assoc, lastLine, List.rtakeWhile_concat, lastLine,
      List.rtakeWhile_concat]
    split
    · rw [← lastLine, ih]
      rfl
    · rfl

theorem Text.lastLine_eq_self {cs : List Char} (h : '\n' ∉ cs) : lastLine cs = cs := by
  rw [lastLine, List.rtakeWhile_eq_self_iff]
  intro c hc
  rw [decide_eq_true_iff]
  rintro rfl
  exact h hc

/-- The last line comes behind the last line feed. -/
theorem Text.exists_eq_append_lineFeed {cs : List Char} (h : '\n' ∈ cs) :
    ∃ above own, cs = above ++ '\n' :: own ∧ '\n' ∉ own := by
  obtain ⟨own, above, hcs, hown⟩ := List.eq_append_cons_of_mem (List.mem_reverse.2 h)
  exact ⟨above.reverse, own.reverse, by simpa using congrArg List.reverse hcs, by simpa using hown⟩

theorem Text.lineFeed_not_mem_of_isPad {cs : List Char} (h : ∀ c ∈ cs, isPad c = true) :
    '\n' ∉ cs :=
  fun hfeed => absurd (h _ hfeed) (by decide)

/-- Where a member stands: the text before its tag, and what separates its payload from it. -/
structure Placement where
  /-- The text before the tag. -/
  before : List Char
  /-- The text between the tag and the payload. -/
  between : List Char

/-- The layout that is meant: each member on a line of its own, with nothing but spaces and tabs
before it, as many as before the others, and with its payload beside it. -/
structure Aligned (ps : List Placement) : Prop where
  ownLine : ps.Pairwise fun p q => p.before.count '\n' < q.before.count '\n'
  padded : ∀ p ∈ ps, ∀ c ∈ lastLine p.before, isPad c = true
  width : ∀ p ∈ ps, ∀ q ∈ ps, (lastLine p.before).length = (lastLine q.before).length
  beside : ∀ p ∈ ps, '\n' ∉ p.between

namespace MemberLine

variable {width : Nat}

/-- What stands before the tag on its line. -/
def margin (l : MemberLine width) : List Char := lastLine (l.pad ++ l.lead)

/-- Where the members of a block stand, the first line of which comes behind `head`. -/
def placements (head : List Char) : List (MemberLine width) → List Placement
  | [] => []
  | l :: ls => ⟨head ++ l.indentation, l.gap⟩ :: placements (head ++ l.text) ls

/-- Nothing but this many spaces and tabs is before the tag on its line: it stands right behind the
measured indentation, or the blanks between them end in a line feed and these spaces and tabs. -/
def StartsAt (l : MemberLine width) (w : Nat) : Prop :=
  l.lead = [] ∧ width = w ∨
    ∃ above own, l.lead = above ++ '\n' :: own ∧ (∀ c ∈ own, isPad c = true) ∧ own.length = w

theorem margin_of_lead_eq_nil {l : MemberLine width} (h : l.lead = []) : l.margin = l.pad := by
  rw [margin, h, List.append_nil, lastLine_eq_self (lineFeed_not_mem_of_isPad l.isPad_pad)]

theorem margin_of_lineFeed {l : MemberLine width} {above own : List Char}
    (h : l.lead = above ++ '\n' :: own) : l.margin = lastLine own := by
  rw [margin, h, ← List.append_assoc, lastLine_append_lineFeed]

/-- Without a line feed before the tag, only the measured indentation can be all there is. -/
theorem lead_eq_nil {l : MemberLine width} (hmargin : ∀ c ∈ l.margin, isPad c = true)
    (hfeed : '\n' ∉ l.lead) : l.lead = [] := by
  have hwhole : l.margin = l.pad ++ l.lead := lastLine_eq_self fun hmem =>
    (List.mem_append.1 hmem).elim (lineFeed_not_mem_of_isPad l.isPad_pad) hfeed
  cases hlead : l.lead with
  | nil => rfl
  | cons c cs =>
    have hc := stops_cons.1 (hlead ▸ l.stops_lead)
    rw [hmargin c (by simp [hwhole, hlead])] at hc
    cases hc

theorem startsAt_iff {l : MemberLine width} {w : Nat} :
    l.StartsAt w ↔ (∀ c ∈ l.margin, isPad c = true) ∧ l.margin.length = w := by
  constructor
  · rintro (⟨hlead, rfl⟩ | ⟨above, own, hlead, hown, rfl⟩)
    · rw [margin_of_lead_eq_nil hlead]
      exact ⟨l.isPad_pad, l.length_pad⟩
    · rw [margin_of_lineFeed hlead, lastLine_eq_self (lineFeed_not_mem_of_isPad hown)]
      exact ⟨hown, rfl⟩
  · rintro ⟨hmargin, rfl⟩
    by_cases hfeed : '\n' ∈ l.lead
    · obtain ⟨above, own, hlead, hown⟩ := exists_eq_append_lineFeed hfeed
      have hmargin_eq : l.margin = own := by rw [margin_of_lineFeed hlead, lastLine_eq_self hown]
      exact .inr ⟨above, own, hlead, hmargin_eq ▸ hmargin, by rw [hmargin_eq]⟩
    · have hlead := lead_eq_nil hmargin hfeed
      exact .inl ⟨hlead, by rw [margin_of_lead_eq_nil hlead, l.length_pad]⟩

theorem lastLine_indentation (head : List Char) (l : MemberLine width) :
    lastLine (head ++ l.indentation) = l.margin := by
  rw [indentation, ← List.append_assoc, lastLine_append_lineFeed, margin]

theorem map_placements (head : List Char) (lines : List (MemberLine width)) :
    (placements head lines).map (fun p => (lastLine p.before, p.between)) =
      lines.map fun l => (l.margin, l.gap) := by
  induction lines generalizing head with
  | nil => rfl
  | cons l ls ih => rw [placements, List.map_cons, List.map_cons, ih, lastLine_indentation]

theorem count_indentation_pos (l : MemberLine width) : 0 < l.indentation.count '\n' :=
  List.count_pos_iff.2 (by simp [indentation])

/-- The members of a block never share a line. -/
theorem pairwise_placements (head : List Char) (lines : List (MemberLine width)) :
    (placements head lines).Pairwise (fun p q => p.before.count '\n' < q.before.count '\n') ∧
      ∀ p ∈ placements head lines, head.count '\n' < p.before.count '\n' := by
  induction lines generalizing head with
  | nil => simp [placements]
  | cons l ls ih =>
    obtain ⟨hpairwise, hhead⟩ := ih (head ++ l.text)
    have hpos := l.count_indentation_pos
    have htext : l.indentation.count '\n' ≤ l.text.count '\n' := by
      rw [text, List.count_append]
      omega
    refine ⟨List.pairwise_cons.2 ⟨fun q hq => ?_, hpairwise⟩, List.forall_mem_cons.2 ⟨?_, ?_⟩⟩
    · have := hhead q hq
      rw [List.count_append] at this ⊢
      omega
    · rw [List.count_append]
      omega
    · intro p hp
      have := hhead p hp
      rw [List.count_append] at this
      omega

/-- **When a block has the layout that is meant.**  Its members are on lines of their own in any
case; the rest depends on the blanks before the tags and before the payloads. -/
theorem aligned_iff (head : List Char) (lines : List (MemberLine width)) :
    Aligned (placements head lines) ↔
      ∃ w, ∀ l ∈ lines, l.StartsAt w ∧ '\n' ∉ l.gap := by
  have transfer (P : List Char × List Char → Prop) :
      (∀ p ∈ placements head lines, P (lastLine p.before, p.between)) ↔
        ∀ l ∈ lines, P (l.margin, l.gap) := by
    rw [← List.forall_mem_map (l := placements head lines), map_placements, List.forall_mem_map]
  constructor
  · intro h
    have hpadded := (transfer fun x => ∀ c ∈ x.1, isPad c = true).1 h.padded
    have hbeside := (transfer fun x => '\n' ∉ x.2).1 h.beside
    have hwidth := (transfer fun x => ∀ q ∈ placements head lines,
      x.1.length = (lastLine q.before).length).1 h.width
    cases lines with
    | nil => exact ⟨0, List.forall_mem_nil _⟩
    | cons l₀ ls =>
      refine ⟨l₀.margin.length, fun l hl => ⟨startsAt_iff.2 ⟨hpadded l hl, ?_⟩, hbeside l hl⟩⟩
      exact (transfer fun x => l.margin.length = x.1.length).1 (hwidth l hl) l₀ List.mem_cons_self
  · rintro ⟨w, h⟩
    have hmargin (l : MemberLine width) (hl : l ∈ lines) := startsAt_iff.1 (h l hl).1
    refine ⟨(pairwise_placements head lines).1, ?_, ?_, ?_⟩
    · exact (transfer fun x => ∀ c ∈ x.1, isPad c = true).2 fun l hl => (hmargin l hl).1
    · refine (transfer fun x => ∀ q ∈ placements head lines,
        x.1.length = (lastLine q.before).length).2 fun l hl => ?_
      refine (transfer fun x => l.margin.length = x.1.length).2 fun l' hl' => ?_
      exact (hmargin l hl).2.trans (hmargin l' hl').2.symm
    · exact (transfer fun x => '\n' ∉ x.2).2 fun l hl => (h l hl).2

end MemberLine

namespace Grammar

open Scanner

/-! ### What is read of a block -/

namespace Covers

/-- The text behind a name goes on with a blank if a name follows it. -/
theorem gap_ne_nil {first : Char → Bool} {gap rest : List Char} {name : String}
    (hfirst : ∀ c, first c = true → isNameChar c = true) (hname : isWord first name = true)
    (h : Stops isNameChar (gap ++ name.toList ++ rest)) : gap ≠ [] := by
  rintro rfl
  obtain ⟨c, cs, rfl, hc, -⟩ := isWord_iff.1 hname
  have hstops : isNameChar c = false := by simpa using h
  rw [hfirst c hc] at hstops
  cases hstops

/-- A line is a member at the width of the block, or a line that is less deep, or deeper. -/
theorem line (block : Option Nat) :
    Covers (line (m := ReadM) block) fun found text rest => match found with
      | .member width m => (∀ w ∈ block, w = width) ∧
          ∃ l : MemberLine width, text = l.text ∧ m = l.member
      | .shallower => ∃ w ∈ block, ∃ tail pad, NextLine tail pad rest (text ++ rest) ∧
          pad ≠ [] ∧ pad.length < w
      | .deeper => ∃ w ∈ block, ∃ tail pad, NextLine tail pad rest (text ++ rest) ∧
          w < pad.length := by
  refine indent.next fun width => ?_
  by_cases deeper : block.any (· < width) = true
  · simp only [deeper, ↓reduceIte]
    refine (report .unexpectedIndent).next fun _ => succeed fun rest text hreport before hbefore =>
      ?_
    obtain ⟨tail, pad, htail, hpad, rfl, -, rfl, hstops⟩ := hbefore
    obtain ⟨w, rfl, hlt⟩ : ∃ w, block = some w ∧ w < pad.length := by
      cases block <;> simp_all
    subst hreport
    exact ⟨w, rfl, tail, pad, ⟨htail, hpad, by simpa using hstops, by simp⟩, hlt⟩
  simp only [deeper]
  by_cases shallower : block.any (width < ·) = true
  · simp only [shallower, ↓reduceIte]
    refine succeed fun rest before hbefore => ?_
    obtain ⟨tail, pad, htail, hpad, rfl, hwidth, rfl, hstops⟩ := hbefore
    obtain ⟨w, rfl, hlt⟩ : ∃ w, block = some w ∧ pad.length < w := by
      cases block <;> simp_all
    exact ⟨w, rfl, tail, pad, ⟨htail, hpad, by simpa using hstops, by simp⟩,
      fun hnil => hwidth (by rw [hnil]; rfl), hlt⟩
  simp only [shallower]
  refine typeName.next fun tag => typeName.next fun payload => succeed fun rest text hpayload text'
    htag before hbefore => ?_
  obtain ⟨gap, hgap, rfl, hpayload_word, -⟩ := hpayload
  obtain ⟨lead, hlead, rfl, htag_word, htag_stops⟩ := htag
  obtain ⟨tail, pad, htail, hpad, hlength, hwidth, rfl, hpad_stops⟩ := hbefore
  have hlead_prefix : lead <+: lead ++ tag.toList ++ (gap ++ payload.toList ++ []) ++ rest := by
    simp only [List.append_assoc]
    exact List.prefix_append _ _
  have hgap_ne_nil : gap ≠ [] :=
    gap_ne_nil (fun _ => isNameChar_of_isTypeStart) hpayload_word
      (by simpa only [List.append_assoc, List.append_nil] using htag_stops)
  refine ⟨?_, ⟨tail, pad, lead, tag, gap, payload, htail, hpad, hlength,
    fun hnil => hwidth (by rw [← hlength, hnil]; rfl), hlead,
    hpad_stops.of_isPrefix hlead_prefix, htag_word, hgap, hgap_ne_nil, hpayload_word⟩, ?_, rfl⟩
  · intro w hw
    obtain rfl : block = some w := hw
    simp only [Option.any_some, decide_eq_true_eq] at deeper shallower
    omega
  · simp [MemberLine.text, MemberLine.indentation]

/-- Line by line, a block is read at one width. -/
theorem members (block : Option Nat) (k : Nat) :
    Covers (members (m := ReadM) block k) fun ms text _ => ∃ width, (∀ w ∈ block, w = width) ∧
      ∃ (lines : List (MemberLine width)) (trailing : List Char),
        ms = lines.map MemberLine.member ∧ Dedent width trailing ∧
          text = lines.flatMap MemberLine.text ++ trailing := by
  induction k generalizing block with
  | zero =>
    refine succeed fun _ => ⟨block.getD 0, ?_, [], [], rfl, .inl rfl, rfl⟩
    cases block <;> simp
  | succ k ih =>
    refine (line block).optional_attempt.next fun found => ?_
    match found with
    | none =>
      refine succeed fun _ before hbefore => ⟨block.getD 0, ?_, [], [], rfl, .inl rfl, ?_⟩
      · cases block <;> simp
      · rw [hbefore]
        rfl
    | some (.member width m) =>
      refine (ih (some width)).next fun ms => succeed fun rest text htext before hbefore => ?_
      obtain ⟨hblock, l, rfl, rfl⟩ := hbefore
      obtain ⟨width', hwidth, lines, trailing, rfl, htrailing, rfl⟩ := htext
      obtain rfl := hwidth width rfl
      exact ⟨width, hblock, l :: lines, trailing, rfl, htrailing, by simp⟩
    | some .shallower =>
      refine succeed fun _ before hbefore => ?_
      obtain ⟨w, hw, tail, pad, hnext, hdedent⟩ := hbefore
      refine ⟨w, fun w' hw' => Option.mem_unique hw' hw, [], before, rfl,
        .inr ⟨tail, pad, hnext.passed, hdedent⟩, ?_⟩
      simp
    | some .deeper => exact fail

/-- What is read as an algebraic type is its heading and its block. -/
theorem typeDefinition :
    Covers (typeDefinition (m := ReadM)) fun d text _ => ∀ a, d = .ofAlgebraic a →
      ∃ (head : List Char) (width : Nat) (lines : List (MemberLine width)) (trailing : List Char),
        Heading a.name head ∧ lines ≠ [] ∧ a.members = lines.map MemberLine.member ∧
          Dedent width trailing ∧ text = head ++ (lines.flatMap MemberLine.text ++ trailing) := by
  refine attempt ((keyword "type").next fun _ => ?_)
  refine (typeName.orElse .typeName (refuse _)).next fun name => ?_
  refine (typeName.optional .typeName).next fun target => ?_
  cases target with
  | some target => exact succeed fun _ _ _ _ _ _ _ a ha => nomatch ha
  | none =>
    refine (expect ":" _).next fun _ => bound.next fun k => (members none k).next fun ms => ?_
    cases ms with
    | nil => exact fail
    | cons m ms =>
      refine succeed fun rest _ hmembers _ hbound _ hcolon _ hgap _ hname _ htype a ha => ?_
      cases ha
      obtain ⟨width, -, lines, trailing, hlines, htrailing, rfl⟩ := hmembers
      obtain ⟨gap, hgap_type, rfl⟩ := htype
      obtain ⟨gap', hgap_name, rfl, hword, -⟩ := hname
      obtain ⟨gap'', hgap_colon, rfl⟩ := hcolon
      subst hbound
      refine ⟨_, width, lines, trailing, ⟨hword, gap, gap', _, hgap_type, hgap_name,
        hgap.append hgap_colon, rfl⟩, ?_, hlines, htrailing, ?_⟩
      · rintro rfl
        cases hlines
      · simp

end Covers

namespace Parser

/-- **What the lines of an algebraic type can look like.**  Wherever an algebraic type is returned,
its text is its heading and a line for each of its members, at one measured indentation.  The
members have the layout that is meant if and only if the blanks before each tag end in a line feed
and as many spaces and tabs as for the others, or are the measured indentation alone and that is as
wide, and no payload is on a later line than its tag. -/
theorem Reached.run_typeDefinition_ofAlgebraic {parser : Parser} (h : parser.Reached) {c : Cursor}
    (hc : c.mark.Fits c.source.text) :
    ∃ result after, parser.run c typeDefinition = .ok (result, after) ∧
      ∀ d, result = some (.ofAlgebraic d) →
        ∃ (head : List Char) (width : Nat) (lines : List (MemberLine width)) (trailing : List Char),
          Heading d.name head ∧ lines ≠ [] ∧ d.members = lines.map MemberLine.member ∧
          Dedent width trailing ∧
          c.Spans (head ++ (lines.flatMap MemberLine.text ++ trailing)) after.cursor.position ∧
          (Aligned (MemberLine.placements head lines) ↔
            ∃ w, ∀ l ∈ lines, l.StartsAt w ∧ '\n' ∉ l.gap) := by
  obtain ⟨after, hrun, hafter⟩ := h.run_call hc .typeDefinition
  refine ⟨_, after, hrun, fun d hd => ?_⟩
  obtain ⟨text, hpass, htext⟩ := Covers.typeDefinition ⟨c.filename, c.mark, []⟩ _ _
    (Prod.ext hd rfl)
  obtain ⟨head, width, lines, trailing, hhead, hne, hmembers, htrailing, rfl⟩ := htext d rfl
  exact ⟨head, width, lines, trailing, hhead, hne, hmembers, htrailing, hafter.spans hpass,
    MemberLine.aligned_iff head lines⟩

/-- A block of two lines, with a shallower line behind it. -/
theorem Reached.run_typeDefinition_ofAlgebraic_two_lines :
    Reached .empty ∧ (Mark.start "type T:\n  I Int \n\t F String\n T").Fits
      "type T:\n  I Int \n\t F String\n T" ∧
    ∃ after, Parser.empty.run (.start ⟨0, "type T:\n  I Int \n\t F String\n T"⟩ "f")
        typeDefinition =
        .ok (some (.ofAlgebraic ⟨"T", [⟨"I", "Int"⟩, ⟨"F", "String"⟩]⟩), after) ∧
      ∃ (width : Nat) (lines : List (MemberLine width)),
        lines.map MemberLine.member = [⟨"I", "Int"⟩, ⟨"F", "String"⟩] := by
  have hc := Mark.Fits.start "type T:\n  I Int \n\t F String\n T"
  obtain ⟨result, after, hrun, hlayout⟩ := run_typeDefinition_ofAlgebraic .empty
    (c := .start ⟨0, "type T:\n  I Int \n\t F String\n T"⟩ "f") hc
  have heval : (Parser.empty.run (.start ⟨0, "type T:\n  I Int \n\t F String\n T"⟩ "f")
      typeDefinition).toOption.map Prod.fst =
        some (some (.ofAlgebraic ⟨"T", [⟨"I", "Int"⟩, ⟨"F", "String"⟩]⟩)) := by decide +kernel
  rw [hrun] at heval
  obtain rfl : result = _ := Option.some.inj heval
  obtain ⟨head, width, lines, -, -, -, hmembers, -⟩ := hlayout _ rfl
  exact ⟨.empty, hc, after, hrun, width, lines, hmembers.symm⟩

/-- Not every block has the layout that is meant.  A member whose payload is missing takes the first
word of the next line for it, although that line is not even indented. -/
theorem run_typeDefinition_payload_below : ∃ after,
    Parser.empty.run (.start ⟨0, "type T:\n  I Int\n  F\nString\n"⟩ "f") typeDefinition =
      .ok (some (.ofAlgebraic ⟨"T", [⟨"I", "Int"⟩, ⟨"F", "String"⟩]⟩), after) ∧
    ∀ line ∈ "type T:\n  I Int\n  F\nString\n".toList.splitOn '\n',
      ¬ ("F".toList <:+: line ∧ "String".toList <:+: line) := by
  have heval : (Parser.empty.run (.start ⟨0, "type T:\n  I Int\n  F\nString\n"⟩ "f")
      typeDefinition).toOption.map Prod.fst =
        some (some (.ofAlgebraic ⟨"T", [⟨"I", "Int"⟩, ⟨"F", "String"⟩]⟩)) := by decide +kernel
  cases hrun : Parser.empty.run (.start ⟨0, "type T:\n  I Int\n  F\nString\n"⟩ "f")
      typeDefinition with
  | error => rw [hrun] at heval; cases heval
  | ok found =>
    rw [hrun] at heval
    obtain ⟨result, after⟩ := found
    obtain rfl : result = _ := Option.some.inj heval
    exact ⟨after, rfl, by decide +kernel⟩

end Parser

end Grammar

end DeclLang
