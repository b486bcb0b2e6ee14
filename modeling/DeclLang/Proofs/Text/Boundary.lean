import DeclLang.Proofs.Text.LineBreak
import DeclLang.Proofs.Text.Place

/-!
# Cursors stay on their text

A mark carries the text behind it, and its offset is a number of bytes.  `Mark.Fits` says that the
two agree: the offset is a position of the text, that is, it is not beyond its end and not inside of
a character, and what the mark carries is the slice of the text from there.

This holds wherever a cursor can be (`Cursor.Fits.operation`).  It does not depend on lines and
columns, so it also holds behind a line feed that was read as a single character, and it does not
depend on transactions being closed in order.
-/

namespace DeclLang.Text

namespace Mark

variable {text : String} {m m' : Mark} {cs ds : List Char}

/-! ### Taking a text -/

/-- The text `cs` stands between the marks.  Lines and columns are not looked at. -/
def Takes (m : Mark) (cs : List Char) (m' : Mark) : Prop :=
  m.rest = cs ++ m'.rest ∧ m'.place.offset = m.place.offset + (String.ofList cs).utf8ByteSize

theorem Passes.takes (h : m.Passes cs m') : m.Takes cs m' :=
  ⟨h.1, by rw [h.2, Place.offset_afterAll]⟩

theorem read?_takes {c : Char} (h : m.read? = some (c, m')) : m.Takes [c] m' := by
  unfold read? at h
  split at h
  case h_1 => cases h
  case h_2 d rest hrest =>
    cases h
    exact ⟨hrest, by rw [← String.singleton_eq_ofList, String.utf8ByteSize_singleton]; rfl⟩

/-! ### Positions of a text -/

/-- The offset is a position of the text, and the mark carries the slice from there. -/
def Fits (text : String) (m : Mark) : Prop :=
  ∃ p : text.Pos, p.offset.byteIdx = m.place.offset ∧ (text.sliceFrom p).copy.toList = m.rest

theorem fits_iff : m.Fits text ↔ ∃ before, text.toList = before ++ m.rest ∧
    m.place.offset = (String.ofList before).utf8ByteSize := by
  constructor
  · rintro ⟨p, hoffset, hslice⟩
    have hsplits := p.splits
    refine ⟨(text.sliceTo p).copy.toList, ?_, ?_⟩
    · rw [← hslice, ← String.toList_append, ← hsplits.eq_append]
    · rw [← hoffset, hsplits.offset_eq_rawEndPos, String.ofList_toList]
      rfl
  · rintro ⟨before, htext, hoffset⟩
    have happend : text = String.ofList before ++ String.ofList m.rest := by
      rw [← String.ofList_append, ← htext, String.ofList_toList]
    have hvalid : (String.ofList before).rawEndPos.IsValid text :=
      String.Pos.Raw.isValid_iff_exists_append.2 ⟨_, _, happend, rfl⟩
    have hsplits : (text.pos _ hvalid).Splits (String.ofList before) (String.ofList m.rest) :=
      ⟨happend, String.offset_pos⟩
    refine ⟨text.pos _ hvalid, ?_, ?_⟩
    · rw [String.offset_pos, hoffset]
      rfl
    · rw [hsplits.copy_sliceFrom_eq, String.toList_ofList]

namespace Fits

theorem start (text : String) : (Mark.start text).Fits text :=
  fits_iff.2 ⟨[], rfl, rfl⟩

theorem takes (h : m.Fits text) (htakes : m.Takes cs m') : m'.Fits text := by
  obtain ⟨before, htext, hoffset⟩ := fits_iff.1 h
  refine fits_iff.2 ⟨before ++ cs, ?_, ?_⟩
  · rw [htext, htakes.1, List.append_assoc]
  · rw [htakes.2, hoffset, String.ofList_append, String.utf8ByteSize_append]

end Fits

end Mark

/-! ### Operations of a cursor -/

namespace Cursor

variable {c c' : Cursor}

/-- An operation that takes a text, if it moves at all. -/
inductive Forward (c : Cursor) : Cursor → Prop
  | read : Forward c c.read.2
  | skipSpace : Forward c c.skipSpace
  | readIndent {width : Option Nat} {c' : Cursor} : c.readIndent = .ok (width, c') → Forward c c'
  | readKeyword {text : String} {found : Bool} {c' : Cursor} :
      c.readKeyword text = .ok (found, c') → Forward c c'
  | readWord {first more : Char → Bool} {word : Option String} {c' : Cursor} :
      c.readWord first more = .ok (word, c') → Forward c c'

/-- Anything that can be done with a cursor.  It stays as it was if a transaction is closed that is
not open. -/
inductive Operation (c : Cursor) : Cursor → Prop
  | forward {c' : Cursor} : c.Forward c' → Operation c c'
  | begin : Operation c c.begin
  | commit : Operation c (c.commit.toOption.getD c)
  | rollback : Operation c (c.rollback.toOption.getD c)

/-- The text that is taken is the beginning of the text that was left. -/
theorem Forward.takes (h : c.Forward c') :
    ∃ cs, c.mark.Takes cs c'.mark ∧ c' = c.moveTo c'.mark := by
  have of_passes {c' : Cursor} (hpass : c.Passes c') :
      ∃ cs, c.mark.Takes cs c'.mark ∧ c' = c.moveTo c'.mark := by
    obtain ⟨cs, hmark, hc'⟩ := hpass
    exact ⟨cs, hmark.takes, hc'⟩
  cases h with
  | read =>
    unfold Cursor.read
    cases hread : c.mark.read? with
    | none => exact of_passes (.refl c)
    | some found => exact ⟨_, Mark.read?_takes hread, rfl⟩
  | skipSpace => exact of_passes c.skipSpace_passes
  | readIndent hread => exact of_passes (readIndent_passes hread)
  | readKeyword hread => exact of_passes (c.readKeyword_passes hread)
  | readWord hread => exact of_passes (c.readWord_passes hread)

theorem Operation.source_eq (h : c.Operation c') : c'.source = c.source := by
  cases h with
  | forward hforward =>
    obtain ⟨cs, -, hc'⟩ := hforward.takes
    rw [hc']
    rfl
  | begin => rfl
  | commit => unfold Cursor.commit; split <;> rfl
  | rollback => unfold Cursor.rollback; split <;> rfl

/-- The mark of the cursor fits its text, and so do those of the transactions open on it. -/
def Fits (c : Cursor) : Prop := ∀ m ∈ c.mark :: c.saved, m.Fits c.source.text

namespace Fits

theorem start (source : Source) (filename : String) : (Cursor.start source filename).Fits := by
  simpa [Cursor.Fits, Cursor.start] using Mark.Fits.start source.text

theorem moveTo (h : c.Fits) {m : Mark} (hm : m.Fits c.source.text) : (c.moveTo m).Fits :=
  List.forall_mem_cons.2 ⟨hm, (List.forall_mem_cons.1 h).2⟩

/-- **No operation moves a cursor off its text.** -/
theorem operation (h : c.Fits) (hop : c.Operation c') : c'.Fits := by
  obtain ⟨hmark, hsaved⟩ := List.forall_mem_cons.1 h
  cases hop with
  | forward hforward =>
    obtain ⟨cs, htakes, hc'⟩ := hforward.takes
    rw [hc']
    exact h.moveTo (hmark.takes htakes)
  | begin => exact List.forall_mem_cons.2 ⟨hmark, h⟩
  | commit =>
    unfold Cursor.commit
    split
    case h_1 => exact h
    case h_2 m saved hstack =>
      rw [hstack] at hsaved
      exact List.forall_mem_cons.2 ⟨hmark, (List.forall_mem_cons.1 hsaved).2⟩
  | rollback =>
    unfold Cursor.rollback
    split
    case h_1 => exact h
    case h_2 m saved hstack => rwa [hstack] at hsaved

end Fits

end Cursor

end DeclLang.Text
