import DeclLang.Proofs.Module.Correspondence
import DeclLang.Proofs.Module.Diagnostics
import DeclLang.Proofs.Text.Moved

/-!
# Texts one behind another

Two texts that are accepted are accepted as one, the second on a line of its own behind the first
(`Module.parse_append`).  Two correspondences of marks say so.

* The first text goes on (`Continued`).  Whatever its last declaration ends with, a list of types, a
  block of members and a line that is indented for one more, it was read against the end of the text
  and is now read against a line feed and another declaration.  A declaration begins with a
  character that neither a type nor a sign nor an indentation begins with, so that makes no
  difference.
* The second text is moved (`Mark.moved`).  It begins with a line, so the columns stay.
-/

namespace DeclLang

open Grammar Text

/-! ### Correspondences -/

section

variable {m m' : Mark} {more : List Char}

/-- Nothing is read differently in a text that is moved. -/
theorem correspondence_moved (bytes lines : Nat) :
    Correspondence fun m m' => m' = m.moved bytes lines where
  skipSpace h := h ▸ Mark.skipWhile_moved isBlank
  solid h _ := h ▸ rfl
  atEnd h hend := h ▸ hend ▸ stops_nil _
  passes h _ hpass hpass' := Mark.Passes.unique (h ▸ hpass') hpass.moved
  indent? {m m'} h := by
    rw [h, Mark.indent?_moved]
    cases m.indent? with
    | none => exact .none
    | some found => exact .some ⟨rfl, rfl⟩

/-- The text goes on with a line feed and more, or has ended, and the mark is where that begins. -/
def Continued (more : List Char) (m m' : Mark) : Prop :=
  m' = m.continued ('\n' :: more) ∨ m.rest = [] ∧ m'.rest = more

namespace Continued

/-- Behind blanks that end the text there is what it goes on with. -/
theorem skipSpace (hmore : Stops isBlank more) (h : Continued more m m') :
    Continued more m.skipSpace m'.skipSpace := by
  rcases h with rfl | ⟨hend, hrest⟩
  · cases hspace : m.skipSpace.rest with
    | nil =>
      have hblanks : ∀ c ∈ m.rest ++ ['\n'], isBlank c = true := by
        intro c hc
        rcases List.mem_append.1 hc with hc | hc
        · exact List.dropWhile_eq_nil_iff.1 hspace c hc
        · rw [List.mem_singleton.1 hc]
          decide
      have hskip := Mark.skipSpace_eq (m := m.continued ('\n' :: more))
        (List.append_cons m.rest '\n' more) hblanks hmore
      exact .inr ⟨hspace, by rw [hskip]⟩
    | cons c cs =>
      have hstops : Stops isBlank (m.skipSpace.rest ++ '\n' :: more) := by
        have := m.stops_skipSpace
        rw [hspace] at this ⊢
        exact stops_cons.2 (stops_cons.1 this)
      refine .inl (Mark.skipSpace_eq ?_ (fun _ hc => List.mem_takeWhile_imp hc) hstops)
      rw [← List.append_assoc, ← m.skipSpace_passes.1]
      rfl
  · have hself : m'.skipSpace = m' := Mark.skipSpace_eq_self (hrest ▸ hmore)
    exact .inr ⟨by simp [Mark.skipSpace, Mark.skipWhile, hend], hself.symm ▸ hrest⟩

theorem passes {n n' : Mark} {cs : List Char} (h : Continued more m m') (hpass : m.Passes cs n)
    (hpass' : m'.Passes cs n') : Continued more n n' := by
  rcases h with rfl | ⟨hend, hrest⟩
  · refine .inl (Mark.Passes.unique hpass' ⟨?_, hpass.2⟩)
    rw [Mark.continued, Mark.continued, hpass.1, List.append_assoc]
  · have hnil := hpass.1.symm.trans hend
    rw [List.append_eq_nil_iff] at hnil
    obtain ⟨rfl, hn⟩ := hnil
    exact .inr ⟨hn, hpass'.1.symm.trans hrest⟩

theorem indent? (hmore : Stops isBlank more) (h : Continued more m m') :
    Option.Rel (fun found found' => found'.1 = found.1 ∧ Continued more found.2 found'.2)
      m.indent? m'.indent? := by
  rcases h with rfl | ⟨hend, hrest⟩
  · rw [Mark.indent?_continued (hmore.mono fun _ => isBlank_of_isPad)]
    cases m.indent? with
    | none => exact .none
    | some found => exact .some ⟨rfl, .inl rfl⟩
  · have none_of_stops {m : Mark} (hm : Stops isBlank m.rest) : m.indent? = none := by
      obtain ⟨r, hrun, -⟩ := Reads.indent_none_of_stops hm ⟨"", m, []⟩ rfl
      rw [ReadM.run_indent] at hrun
      cases hindent : m.indent? with
      | none => rfl
      | some found => rw [hindent] at hrun; cases hrun
    rw [none_of_stops (hend ▸ stops_nil _), none_of_stops (hrest ▸ hmore)]
    exact .none

end Continued

/-- Nothing is read differently in a text that goes on with another declaration. -/
theorem correspondence_continued (hmore : Stops (fun c => !isVariableStart c) more) :
    Correspondence (Continued more) := by
  have hblank : Stops isBlank more := hmore.mono fun c hc => by
    simp [isVariableStart_eq_false_of_isBlank hc]
  refine ⟨Continued.skipSpace hblank, ?_, ?_, fun h _ => h.passes, Continued.indent? hblank⟩
  · rintro m m' (rfl | ⟨hend, -⟩) hne
    · exact takeWhile_continued (stops_cons.2 (by decide)) m.rest
    · exact absurd hend hne
  · rintro m m' (rfl | ⟨-, hrest⟩) hend
    · rw [Mark.continued, hend]
      exact stops_cons.2 (by decide)
    · rw [hrest]
      exact hmore.mono fun c hc => by simp_all

end

/-! ### Diagnostics -/

/-- The diagnostic, if so many bytes in so many lines come before its text. -/
def Diagnostic.moved (bytes lines : Nat) (d : Diagnostic) : Diagnostic :=
  { d with location.place := d.location.place.moved bytes lines }

theorem Grammar.Counterpart.eq_moved {bytes lines : Nat} {d d' : Diagnostic}
    (h : Counterpart (fun m m' => m' = m.moved bytes lines) d d') : d' = d.moved bytes lines :=
  h.eq_of_place fun m m' hm hplace => by rw [hm, hplace, Mark.moved]

/-- The diagnostics of a text that is accepted are located before its end. -/
theorem Layout.offset_lt {filename : String} {m : Mark} {ds : List Declaration}
    {diagnostics : List Diagnostic} (h : Layout filename m ds diagnostics) :
    ∀ d ∈ diagnostics, d.location.place.offset < (m.place.afterAll m.rest).offset := by
  induction h with
  | nil => simp
  | @type m _ _ _ _ _ hpass _ _ ih =>
    rw [← m.skipSpace_passes.end_eq, ← hpass.end_eq]
    exact ih
  | @function m m' _ _ _ _ _ _ hpass _ _ ih =>
    rw [← m.skipSpace_passes.end_eq, ← hpass.end_eq]
    intro d hd
    rcases List.mem_append.1 hd with hd | hd
    · obtain ⟨-, -, hlt⟩ := offset_of_misreading hpass (Option.mem_toList.1 hd)
      exact hlt.trans_le (m'.place.offset_le_offset_afterAll m'.rest)
    · exact ih d hd

/-- Before the end of a text it makes no difference that it goes on. -/
theorem Grammar.Counterpart.eq_of_offset_lt {text : String} {more : List Char} {d d' : Diagnostic}
    (h : Counterpart (fun m m' => m.On text ∧ Continued more m m') d d')
    (hlt : d.location.place.offset < (Place.start.afterAll text.toList).offset) : d' = d := by
  refine h.eq_of_place fun m m' ⟨⟨cs, hpass⟩, hcontinued⟩ hplace => ?_
  rw [hplace]
  rcases hcontinued with rfl | ⟨hend, -⟩
  · rfl
  · -- At the end of the text there is no diagnostic.
    have htext : text.toList = cs := by
      rw [← List.append_nil cs, ← hend]
      exact hpass.1
    rw [hplace, hpass.2, htext] at hlt
    exact absurd hlt (lt_irrefl _)

/-! ### Two texts -/

/-- A text that is nothing but declarations begins with one, or with a blank. -/
theorem Declares.stops_of_stops {filename : String} {m : Mark}
    {parts : List (Declaration × List Diagnostic)} (h : Declares filename m parts)
    (hstops : Stops isBlank m.rest) : Stops (fun c => !isVariableStart c) m.rest := by
  have hself := Mark.skipSpace_eq_self hstops
  cases h with
  | nil hend =>
    rw [← hself, hend]
    exact stops_nil _
  | cons _ hrun =>
    rw [hself] at hrun
    exact stops_of_declaration hstops hrun

namespace Module

/-- **Texts can be put one behind another.**  If two texts are accepted and the second one does not
begin with a blank, then they are accepted with a line feed between them, as the declarations of
both.  The diagnostics of the first one stay, and those of the second one are moved by the bytes and
the lines that come before. -/
theorem parse_append {a b filename : String} {first second : Module}
    (ha : parse a filename = .ok first) (hb : parse b filename = .ok second)
    (hstops : Stops isBlank b.toList) :
    parse (a ++ "\n" ++ b) filename = .ok ⟨filename, first.declarations ++ second.declarations,
      first.diagnostics ++ second.diagnostics.map
        (Diagnostic.moved (a.utf8ByteSize + 1) (a.toList.count '\n' + 1))⟩ := by
  obtain ⟨parts, hparts, rfl⟩ := parse_eq_ok_iff.1 ha
  obtain ⟨others, hothers, rfl⟩ := parse_eq_ok_iff.1 hb
  obtain ⟨m, hfirst, hend⟩ := declares_iff.1 hparts
  obtain ⟨n, hsecond, hend'⟩ := declares_iff.1 hothers
  have htext : (a ++ "\n" ++ b).toList = a.toList ++ '\n' :: b.toList := by simp
  -- The first text goes on with the second one.
  have hbegins := hothers.stops_of_stops hstops
  have hstart : Continued b.toList (.start a) (.start (a ++ "\n" ++ b)) :=
    .inl (by rw [Mark.start, htext]; rfl)
  obtain ⟨parts', m', hfirst', ⟨-, hm⟩, hsame, hdiagnostics⟩ :=
    hfirst.transfer ((correspondence_continued hbegins).on a) ⟨.start a, hstart⟩
  have hkept := eq_map_of_forall₂ (f := id) hdiagnostics fun d hd d' h =>
    h.eq_of_offset_lt (hparts.layout.offset_lt d hd)
  -- It ends where the second one begins, which is as if that were moved there.
  have hmoved : m' = (Mark.start b).moved (a.utf8ByteSize + 1) (a.toList.count '\n' + 1) := by
    have hrest : m'.rest = b.toList := by
      rcases hm with rfl | ⟨-, hrest⟩
      · have hblank := hfirst'.stops
        rw [Mark.continued, hend] at hblank
        exact absurd (stops_cons.1 hblank) (by decide)
      · exact hrest
    obtain ⟨cs, hpass⟩ := hfirst'.passes
    obtain rfl : cs = a.toList ++ ['\n'] := by
      have happend := hpass.1
      rw [Mark.start, htext, hrest, List.append_cons] at happend
      exact (List.append_cancel_right happend).symm
    refine Mark.Passes.unique hpass ⟨?_, ?_⟩
    · rw [Mark.start, htext, List.append_cons]
      rfl
    · have hplace := Place.afterAll_lineFeed a.toList
      rw [String.ofList_toList] at hplace
      exact hplace.symm
  obtain ⟨others', n', hsecond', hn, hsame', hdiagnostics'⟩ :=
    hsecond.transfer (correspondence_moved (a.utf8ByteSize + 1) (a.toList.count '\n' + 1)) hmoved
  have hshifted := eq_map_of_forall₂ hdiagnostics' fun d _ d' h => h.eq_moved
  refine parse_eq_ok_iff.2 ⟨parts' ++ others', declares_iff.2 ⟨n', hfirst'.append hsecond', ?_⟩, ?_⟩
  · rw [hn]
    exact hend'
  · rw [List.map_append, List.flatMap_append, hsame, hsame', hkept, hshifted, List.map_id]

/-- The first text ends with a line that is indented, but not as deep as the member before it, and
has a blank of three bytes.  In both texts a name is misread. -/
theorem parse_append_open_block :
    ∃ first second, parse "type_ :: =\u3000\ntype A:\n   B C\n  " "f" = .ok first ∧
      parse "types :: [A]\n" "f" = .ok second ∧ Stops isBlank "types :: [A]\n".toList ∧
      parse ("type_ :: =\u3000\ntype A:\n   B C\n  " ++ "\n" ++ "types :: [A]\n") "f" =
        .ok ⟨"f", first.declarations ++ second.declarations,
          [⟨.expectedTypeName, ⟨"f", ⟨4, 1, 5⟩⟩⟩, ⟨.expectedTypeName, ⟨"f", ⟨36, 5, 5⟩⟩⟩]⟩ := by
  have ha : parse "type_ :: =\u3000\ntype A:\n   B C\n  " "f" = .ok ⟨"f",
      [.function ⟨"type_", none, none⟩, .type (.ofAlgebraic ⟨"A", [⟨"B", "C"⟩]⟩)],
      [⟨.expectedTypeName, ⟨"f", ⟨4, 1, 5⟩⟩⟩]⟩ := by decide +kernel
  have hb : parse "types :: [A]\n" "f" = .ok ⟨"f",
      [.function ⟨"types", some [.array "A"], none⟩],
      [⟨.expectedTypeName, ⟨"f", ⟨4, 1, 5⟩⟩⟩]⟩ := by decide +kernel
  have hstops : Stops isBlank "types :: [A]\n".toList := stops_cons.2 (by decide)
  refine ⟨_, _, ha, hb, hstops, (parse_append ha hb hstops).trans ?_⟩
  decide +kernel

end Module

end DeclLang
