import DeclLang.Proofs.Module.Cut
import DeclLang.Proofs.Module.Diagnostics

/-!
# Refused texts

A text is refused at the mark behind the declarations that could be read, where more text comes and
no declaration begins.  `Refusal` says what is known of the reason.

* A syntax error is the last resort: nothing has been recorded, neither at that mark nor before.
  The error is located there, and the text before is accepted when it stands alone, as the same
  declarations (`Stretch.cut`).
* Any other reason is what the type definition attempted at that mark has recorded, once
  (`run_declaration_none`), or else the first diagnostic of the declarations before
  (`Stretch.pairwise`).
-/

namespace DeclLang

open Grammar Text

/-- The reason to refuse a text, behind these declarations and at this mark, where a parser that has
seen nothing records these diagnostics. -/
structure Refusal (text filename : String) (e : Diagnostic)
    (parts : List (Declaration × List Diagnostic)) (m : Mark) (recorded : List Diagnostic) :
    Prop where
  /-- The declarations are those that the text begins with. -/
  stretch : Stretch filename (.start text) parts m
  /-- There is more of the text, and it does not begin with a blank. -/
  nonblank : ∃ c ∈ m.rest.head?, isBlank c = false
  /-- There is no declaration at the mark. -/
  declaration : ∃ memo, Parser.empty.run ((Cursor.start ⟨0, text⟩ filename).moveTo m)
    Call.declaration.rule =
      .ok (none, ⟨⟨memo, recorded⟩, (Cursor.start ⟨0, text⟩ filename).moveTo m⟩)
  /-- The diagnostics are those of a type definition. -/
  typeDefinition : ∃ memo, Parser.empty.run ((Cursor.start ⟨0, text⟩ filename).moveTo m)
    Call.typeDefinition.rule =
      .ok (none, ⟨⟨memo, recorded⟩, (Cursor.start ⟨0, text⟩ filename).moveTo m⟩)
  /-- A syntax error is located at the mark.  Nothing is recorded there, and the text before it is
  accepted, without diagnostics. -/
  of_syntaxError : e.kind = .syntaxError → recorded = [] ∧ e.location = ⟨filename, m.place⟩ ∧
    m.place.offset < text.utf8ByteSize ∧ ∃ before : String, text.toList = before.toList ++ m.rest ∧
      before.utf8ByteSize = m.place.offset ∧
      Module.parse before filename = .ok ⟨filename, parts.map Prod.fst, []⟩
  /-- Anything else is the one diagnostic that is recorded at the mark or, if there is none, the
  first of those before. -/
  of_not_syntaxError : e.kind ≠ .syntaxError → recorded = [e] ∨ recorded = [] ∧
    e ∈ parts.flatMap Prod.snd ∧ ∀ d ∈ parts.flatMap Prod.snd, d ≠ e →
      e.location.place.offset < d.location.place.offset

/-- A call that fails without moving fails for a parser that has seen nothing. -/
theorem run_empty_of_reading {text filename : String} {m : Mark} {recorded : List Diagnostic}
    (hm : m.On text) (call : Call)
    (h : ReadM.run call.rule.run ⟨filename, m, []⟩ = (none, ⟨filename, m, recorded⟩)) :
    ∃ memo, Parser.empty.run ((Cursor.start ⟨0, text⟩ filename).moveTo m) call.rule =
      .ok (none, ⟨⟨memo, recorded⟩, (Cursor.start ⟨0, text⟩ filename).moveTo m⟩) := by
  obtain ⟨memo, -, -, hrun⟩ := @Parser.run_call .empty
    ((Cursor.start ⟨0, text⟩ filename).moveTo m) MemoTable.faithful_empty hm call
  have hreading : call.reading ((Cursor.start ⟨0, text⟩ filename).moveTo m) =
      (none, ⟨filename, m, recorded⟩) := h
  rw [hreading] at hrun
  exact ⟨memo, hrun⟩

/-- Declarations that record nothing are all of the text before the mark behind them. -/
theorem Stretch.parse_before {text filename : String} {m : Mark}
    {parts : List (Declaration × List Diagnostic)} (h : Stretch filename (.start text) parts m)
    (hnil : parts.flatMap Prod.snd = []) :
    ∃ before : String, text.toList = before.toList ++ m.rest ∧
      before.utf8ByteSize = m.place.offset ∧
      Module.parse before filename = .ok ⟨filename, parts.map Prod.fst, []⟩ := by
  obtain ⟨before, hbefore, -, hdeclares⟩ := h.cut
  obtain ⟨cs, hpass⟩ := h.passes
  obtain rfl : cs = before := List.append_cancel_right (hpass.1.symm.trans hbefore)
  obtain ⟨parts', hparts, hsame⟩ := hdeclares filename (.start (String.ofList cs))
    String.toList_ofList
  refine ⟨String.ofList cs, by rw [String.toList_ofList]; exact hbefore, ?_, ?_⟩
  · rw [hpass.2, Place.offset_afterAll]
    exact (Nat.zero_add _).symm
  · have hlayout := hparts.layout
    rw [hsame] at hlayout
    refine Module.parse_eq_ok_iff.2 ⟨parts', hparts, ?_⟩
    rw [hsame, h.diagnostics_eq_nil hnil hlayout]

/-- Where there is more of the text, its end is not. -/
theorem offset_lt_utf8ByteSize {text : String} {m : Mark} (hm : m.On text) (hmore : m.rest ≠ []) :
    m.place.offset < text.utf8ByteSize := by
  obtain ⟨cs, hpass⟩ := hm
  have hend : (m.place.afterAll m.rest).offset = text.utf8ByteSize := by
    rw [hpass.2, ← Place.afterAll_append, ← hpass.1, Place.offset_afterAll]
    change 0 + (String.ofList text.toList).utf8ByteSize = _
    rw [String.ofList_toList, Nat.zero_add]
  exact hend ▸ m.place.offset_lt_offset_afterAll hmore

namespace Module

/-- **A text is refused where its declarations end, and for the first thing that is wrong.** -/
theorem refusal_of_parse {text filename : String} {e : Diagnostic}
    (h : parse text filename = .error e) :
    ∃ parts m recorded, Refusal text filename e parts m recorded := by
  obtain ⟨parts, m, recorded, hstretch, hmore, hrun, he⟩ := parse_eq_error_iff.1 h
  obtain ⟨htype, new, hrecorded, hkind⟩ := run_declaration_none hrun
  obtain ⟨hsorted, hkept⟩ := hstretch.pairwise
  obtain ⟨cs, hpass⟩ := hstretch.passes
  have hm : m.On text := ⟨cs, hpass⟩
  obtain rfl : recorded = new.toList := congrArg Reading.recorded hrecorded
  -- Something is recorded at the mark, or else before it, or else nowhere.
  have hreason : new = some e ∧ e.kind ≠ .syntaxError ∨
      new = none ∧ e.kind ≠ .syntaxError ∧ (∃ ds, parts.flatMap Prod.snd = e :: ds) ∨
      new = none ∧ parts.flatMap Prod.snd = [] ∧ e = ⟨.syntaxError, ⟨filename, m.place⟩⟩ := by
    cases new with
    | some d =>
      obtain rfl : e = d := he
      exact .inl ⟨rfl, hkind e rfl⟩
    | none =>
      cases hall : parts.flatMap Prod.snd with
      | nil =>
        rw [hall] at he
        exact .inr (.inr ⟨rfl, rfl, he⟩)
      | cons d ds =>
        rw [hall] at he
        obtain rfl : e = d := he
        exact .inr (.inl ⟨rfl, (hkept e (hall ▸ List.mem_cons_self)).1, ds, rfl⟩)
  refine ⟨parts, m, _, hstretch, ?_, run_empty_of_reading hm .declaration hrun,
    run_empty_of_reading hm .typeDefinition htype, fun hsyntax => ?_, fun hother => ?_⟩
  · obtain ⟨c, more, hrest⟩ := List.exists_cons_of_ne_nil hmore
    exact ⟨c, by rw [hrest]; rfl, stops_cons.1 (hrest ▸ hstretch.stops)⟩
  · obtain ⟨-, hother⟩ | ⟨-, hother, -⟩ | ⟨rfl, hnil, rfl⟩ := hreason
    · exact absurd hsyntax hother
    · exact absurd hsyntax hother
    · exact ⟨rfl, rfl, offset_lt_utf8ByteSize hm hmore, hstretch.parse_before hnil⟩
  · obtain ⟨rfl, -⟩ | ⟨rfl, -, ds, hall⟩ | ⟨-, -, rfl⟩ := hreason
    · exact .inl rfl
    · rw [hall] at hsorted ⊢
      refine .inr ⟨rfl, List.mem_cons_self, fun d hd hne => ?_⟩
      exact (List.pairwise_cons.1 hsorted).1 d ((List.mem_cons.1 hd).resolve_left hne)
    · exact absurd rfl hother

/-- No type expression can be read behind the last name, so the definition ends on the line before,
and no declaration begins with that name. -/
theorem refusal_of_parse_member : ∃ e parts m recorded,
    parse "type A:\n  B C\n  D [" "f" = .error e ∧ e = ⟨.syntaxError, ⟨"f", ⟨16, 3, 3⟩⟩⟩ ∧
      Refusal "type A:\n  B C\n  D [" "f" e parts m recorded := by
  have h : parse "type A:\n  B C\n  D [" "f" = .error ⟨.syntaxError, ⟨"f", ⟨16, 3, 3⟩⟩⟩ := by
    decide +kernel
  obtain ⟨parts, m, recorded, hrefusal⟩ := refusal_of_parse h
  exact ⟨_, parts, m, recorded, h, rfl, hrefusal⟩

end Module

end DeclLang
