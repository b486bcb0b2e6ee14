import Mathlib.Data.List.TakeWhile
import Mathlib.Algebra.Order.Group.Nat
import DeclLang.Text.Mark

/-!
# Passages

`m.Passes cs m'` says that the text `cs` stands between the marks `m` and `m'`, with the places
counted as `Place.after` counts them.  Every way to match a text is such a passage, and the
statements of this file say which one:

* `Mark.skipWhile_eq_iff`, `Mark.literal?_eq_some_iff`, `Mark.word?_eq_some_iff` and
  `Mark.indent?_eq_some_iff` describe the texts that match;
* `Mark.On text m` says that `m` is a mark of `text`, that is, a passage leads to it from the
  start.  A mark of a text is known by its offset alone (`Mark.On.eq_of_offset_eq`), since every
  character has at least one byte.
-/

namespace DeclLang.Text

/-! ### Runs of a class -/

/-- A text that does not begin with a character of the class. -/
def Stops (p : Char → Bool) (cs : List Char) : Prop := ∀ c ∈ cs.head?, p c = false

@[simp] theorem stops_nil (p : Char → Bool) : Stops p [] := by simp [Stops]

@[simp] theorem stops_cons {p : Char → Bool} {c : Char} {cs : List Char} :
    Stops p (c :: cs) ↔ p c = false := by
  simp [Stops]

theorem Stops.mono {p q : Char → Bool} {cs : List Char} (h : Stops p cs)
    (hpq : ∀ c, q c = true → p c = true) : Stops q cs := by
  intro c hc
  by_contra hq
  rw [Bool.not_eq_false] at hq
  have := hpq c hq
  rw [h c hc] at this
  cases this

theorem Stops.of_isPrefix {p : Char → Bool} {cs ds : List Char} (h : Stops p ds) (hcs : cs <+: ds) :
    Stops p cs := by
  cases cs with
  | nil => exact stops_nil p
  | cons c cs =>
    obtain ⟨more, rfl⟩ := hcs
    exact stops_cons.2 (stops_cons.1 h)

theorem Stops.append {p : Char → Bool} {cs : List Char} (h : Stops p cs) (hcs : cs ≠ [])
    (ds : List Char) : Stops p (cs ++ ds) := by
  cases cs with
  | nil => exact absurd rfl hcs
  | cons c cs => exact h

theorem stops_dropWhile (p : Char → Bool) (cs : List Char) : Stops p (cs.dropWhile p) := by
  induction cs with
  | nil => simp
  | cons c cs ih =>
    by_cases hc : p c = true
    · rwa [List.dropWhile_cons_of_pos hc]
    · rw [List.dropWhile_cons_of_neg hc]
      simpa using hc

theorem takeWhile_append_of_stops {p : Char → Bool} {cs rest : List Char}
    (hcs : ∀ c ∈ cs, p c = true) (hrest : Stops p rest) : (cs ++ rest).takeWhile p = cs := by
  rw [List.takeWhile_append_of_pos hcs]
  cases rest with
  | nil => simp
  | cons c rest => simp [stops_cons.1 hrest]

theorem dropWhile_append_of_stops {p : Char → Bool} {cs rest : List Char}
    (hcs : ∀ c ∈ cs, p c = true) (hrest : Stops p rest) : (cs ++ rest).dropWhile p = rest := by
  rw [List.dropWhile_append_of_pos hcs]
  cases rest with
  | nil => simp
  | cons c rest => simp [stops_cons.1 hrest]

/-! ### Words -/

/-- A word: a character of the class, and name characters behind it. -/
def isWord (first : Char → Bool) (word : String) : Bool :=
  match word.toList with
  | [] => false
  | c :: cs => first c && cs.all isNameChar

theorem isWord_iff {first : Char → Bool} {word : String} :
    isWord first word = true ↔ ∃ c cs, word = String.ofList (c :: cs) ∧ first c = true ∧
      ∀ d ∈ cs, isNameChar d = true := by
  unfold isWord
  constructor
  · intro h
    cases hword : word.toList with
    | nil => rw [hword] at h; cases h
    | cons c cs =>
      rw [hword] at h
      simp only [Bool.and_eq_true, List.all_eq_true] at h
      exact ⟨c, cs, by rw [← hword, String.ofList_toList], h⟩
  · rintro ⟨c, cs, rfl, hc, hcs⟩
    rw [String.toList_ofList]
    simpa [hc] using hcs

theorem isNameChar_of_mem_word {first : Char → Bool} {word : String}
    (hfirst : ∀ c, first c = true → isNameChar c = true) (h : isWord first word = true) :
    ∀ c ∈ word.toList, isNameChar c = true := by
  obtain ⟨c, cs, rfl, hc, hcs⟩ := isWord_iff.1 h
  rw [String.toList_ofList]
  intro d hd
  rcases List.mem_cons.1 hd with rfl | hd
  · exact hfirst d hc
  · exact hcs d hd

theorem stops_word {first p : Char → Bool} {word : String} (h : isWord first word = true)
    (hp : ∀ c, first c = true → p c = false) (more : List Char) :
    Stops p (word.toList ++ more) := by
  obtain ⟨c, cs, rfl, hc, -⟩ := isWord_iff.1 h
  rw [String.toList_ofList, List.cons_append]
  exact stops_cons.2 (hp c hc)

theorem stops_typeName {name : String} (hname : isWord isTypeStart name = true)
    (more : List Char) : Stops isBlank (name.toList ++ more) :=
  stops_word hname (fun _ hc => isBlank_eq_false_of_isNameChar (isNameChar_of_isTypeStart hc)) more

theorem stops_identifier {name : String} (hname : isWord isVariableStart name = true)
    (more : List Char) : Stops isBlank (name.toList ++ more) :=
  stops_word hname
    (fun _ hc => isBlank_eq_false_of_isNameChar (isNameChar_of_isVariableStart hc)) more

theorem toList_ne_nil_of_isWord {first : Char → Bool} {word : String}
    (h : isWord first word = true) : word.toList ≠ [] := by
  obtain ⟨c, cs, rfl, -⟩ := isWord_iff.1 h
  simp

/-! ### Blanks -/

/-- Nothing but blanks. -/
def Gap (cs : List Char) : Prop := ∀ c ∈ cs, isBlank c = true

-- Named, because characters are finite: with `Fintype Char` at hand, all of them would be tried.
instance : DecidablePred Gap := fun cs => List.decidableBAll (isBlank · = true) cs

theorem Gap.nil : Gap [] := by simp [Gap]

theorem Gap.append {cs ds : List Char} (h : Gap cs) (h' : Gap ds) : Gap (cs ++ ds) := by
  intro c hc
  rcases List.mem_append.1 hc with hc | hc
  · exact h c hc
  · exact h' c hc

theorem isNameChar_eq_false_of_isBlank {c : Char} (h : isBlank c = true) :
    isNameChar c = false := by
  by_contra hname
  rw [Bool.not_eq_false] at hname
  rw [isBlank_eq_false_of_isNameChar hname] at h
  cases h

/-- A name ends before a blank. -/
theorem Gap.stops_isNameChar {gap : List Char} (h : Gap gap) (hne : gap ≠ []) (more : List Char) :
    Stops isNameChar (gap ++ more) := by
  cases gap with
  | nil => exact absurd rfl hne
  | cons c cs => exact stops_cons.2 (isNameChar_eq_false_of_isBlank (h c List.mem_cons_self))

/-! ### Places -/

namespace Place

@[simp] theorem afterAll_nil (p : Place) : p.afterAll [] = p := rfl

@[simp] theorem afterAll_cons (p : Place) (c : Char) (cs : List Char) :
    p.afterAll (c :: cs) = (p.after c).afterAll cs := rfl

theorem afterAll_append (p : Place) (cs ds : List Char) :
    p.afterAll (cs ++ ds) = (p.afterAll cs).afterAll ds :=
  List.foldl_append

theorem offset_after (p : Place) (c : Char) : (p.after c).offset = p.offset + c.utf8Size := by
  unfold after
  split <;> rfl

theorem offset_lt_offset_after (p : Place) (c : Char) : p.offset < (p.after c).offset := by
  have := c.utf8Size_pos
  rw [offset_after]; omega

theorem offset_le_offset_afterAll (p : Place) (cs : List Char) :
    p.offset ≤ (p.afterAll cs).offset := by
  induction cs generalizing p with
  | nil => exact le_rfl
  | cons c cs ih => exact (p.offset_lt_offset_after c).le.trans (ih _)

theorem offset_lt_offset_afterAll (p : Place) {cs : List Char} (h : cs ≠ []) :
    p.offset < (p.afterAll cs).offset := by
  cases cs with
  | nil => exact absurd rfl h
  | cons c cs => exact (p.offset_lt_offset_after c).trans_le (offset_le_offset_afterAll _ cs)

/-- Two prefixes of one text that have the same number of bytes are equal. -/
theorem eq_of_offset_afterAll_eq {p : Place} {cs ds rest rest' : List Char}
    (happ : cs ++ rest = ds ++ rest') (h : (p.afterAll cs).offset = (p.afterAll ds).offset) :
    cs = ds := by
  -- A character more on one side is at least one byte more.
  induction cs generalizing p ds with
  | nil =>
    cases ds with
    | nil => rfl
    | cons d ds =>
      have h1 := p.offset_lt_offset_after d
      have h2 := (p.after d).offset_le_offset_afterAll ds
      simp only [afterAll_nil, afterAll_cons] at h
      omega
  | cons c cs ih =>
    cases ds with
    | nil =>
      have h1 := p.offset_lt_offset_after c
      have h2 := (p.after c).offset_le_offset_afterAll cs
      simp only [afterAll_nil, afterAll_cons] at h
      omega
    | cons d ds =>
      simp only [List.cons_append, List.cons.injEq] at happ
      obtain ⟨rfl, happ⟩ := happ
      rw [ih happ h]

theorem after_eq_right {c : Char} (hc : c ≠ '\n') (p : Place) : p.right c = p.after c := by
  simp [right, after, hc]

end Place

namespace Mark

/-! ### Passages -/

/-- The text `cs` stands between `m` and `m'`. -/
def Passes (m : Mark) (cs : List Char) (m' : Mark) : Prop :=
  m.rest = cs ++ m'.rest ∧ m'.place = m.place.afterAll cs

variable {m m' m'' : Mark} {cs ds : List Char}

namespace Passes

theorem refl (m : Mark) : m.Passes [] m := ⟨rfl, rfl⟩

theorem trans (h : m.Passes cs m') (h' : m'.Passes ds m'') : m.Passes (cs ++ ds) m'' := by
  refine ⟨?_, ?_⟩
  · rw [h.1, h'.1, List.append_assoc]
  · rw [h'.2, h.2, Place.afterAll_append]

/-- The text passed determines the mark behind it. -/
theorem unique (h : m.Passes cs m') (h' : m.Passes cs m'') : m' = m'' := by
  have hrest : m'.rest = m''.rest := List.append_cancel_left (h.1.symm.trans h'.1)
  have hplace : m'.place = m''.place := h.2.trans h'.2.symm
  cases m'; cases m''; simp_all

theorem offset_le (h : m.Passes cs m') :
    m.place.offset ≤ m'.place.offset :=
  h.2 ▸ m.place.offset_le_offset_afterAll cs

theorem offset_lt (h : m.Passes cs m') (hcs : cs ≠ []) : m.place.offset < m'.place.offset :=
  h.2 ▸ m.place.offset_lt_offset_afterAll hcs

end Passes

theorem passes_of_rest_eq {rest : List Char} (h : m.rest = cs ++ rest) :
    m.Passes cs ⟨m.place.afterAll cs, rest⟩ :=
  ⟨h, rfl⟩

/-! ### Matches -/

theorem skipWhile_passes (m : Mark) (p : Char → Bool) :
    m.Passes (m.rest.takeWhile p) (m.skipWhile p) :=
  ⟨List.takeWhile_append_dropWhile.symm, rfl⟩

/-- The run of a class that is passed is the longest one. -/
theorem skipWhile_eq_iff {p : Char → Bool} :
    m.skipWhile p = m' ↔ ∃ cs, (∀ c ∈ cs, p c = true) ∧ Stops p m'.rest ∧ m.Passes cs m' := by
  constructor
  · rintro rfl
    exact ⟨_, fun c hc => List.mem_takeWhile_imp hc, stops_dropWhile p m.rest,
      m.skipWhile_passes p⟩
  · rintro ⟨cs, hcs, hstop, hpass⟩
    have htake : m.rest.takeWhile p = cs := by
      rw [hpass.1, takeWhile_append_of_stops hcs hstop]
    exact (htake ▸ m.skipWhile_passes p).unique hpass

theorem skipSpace_passes (m : Mark) : m.Passes (m.rest.takeWhile isBlank) m.skipSpace :=
  m.skipWhile_passes isBlank

theorem gap_skipSpace (m : Mark) : Gap (m.rest.takeWhile isBlank) :=
  fun _ hc => List.mem_takeWhile_imp hc

/-- The blanks are passed up to the first character that is none. -/
theorem skipSpace_eq {blanks rest : List Char} (h : m.rest = blanks ++ rest)
    (hblanks : ∀ c ∈ blanks, isBlank c = true) (hrest : Stops isBlank rest) :
    m.skipSpace = ⟨m.place.afterAll blanks, rest⟩ :=
  skipWhile_eq_iff.2 ⟨blanks, hblanks, hrest, passes_of_rest_eq h⟩

theorem skipSpace_eq_self (h : Stops isBlank m.rest) : m.skipSpace = m :=
  skipSpace_eq (List.nil_append m.rest).symm (by simp) h

theorem stops_skipSpace (m : Mark) : Stops isBlank m.skipSpace.rest :=
  stops_dropWhile isBlank m.rest

theorem skipSpace_skipSpace (m : Mark) : m.skipSpace.skipSpace = m.skipSpace :=
  skipSpace_eq_self m.stops_skipSpace

theorem literal?_eq_some_iff : m.literal? cs = some m' ↔ m.Passes cs m' := by
  unfold literal?
  constructor
  · intro h
    split at h
    case isTrue hp =>
      obtain ⟨rest, hrest⟩ := List.isPrefixOf_iff_prefix.1 hp
      cases h
      refine ⟨?_, rfl⟩
      simp only [← hrest, List.drop_left]
    case isFalse => cases h
  · rintro ⟨hrest, hplace⟩
    have hp : cs.isPrefixOf m.rest = true := by
      rw [hrest]; exact List.isPrefixOf_iff_prefix.2 ⟨_, rfl⟩
    rw [if_pos hp, hrest, List.drop_left, ← hplace]

theorem literal?_eq_none_iff : m.literal? cs = none ↔ ¬ cs <+: m.rest := by
  simp [literal?, ← List.isPrefixOf_iff_prefix]

/-- A word is a character of the one class and the longest run of the other behind it. -/
theorem word?_eq_some_iff {first more : Char → Bool} {word : String} :
    m.word? first more = some (word, m') ↔
      ∃ c cs, word = String.ofList (c :: cs) ∧ first c = true ∧ (∀ d ∈ cs, more d = true) ∧
        Stops more m'.rest ∧ m.Passes (c :: cs) m' := by
  unfold word?
  constructor
  · intro h
    split at h
    case h_1 => cases h
    case h_2 c rest hrest =>
      split at h
      case isTrue hc =>
        simp only [Option.some.injEq, Prod.mk.injEq] at h
        obtain ⟨rfl, rfl⟩ := h
        have hpass : m.Passes [c] ⟨m.place.after c, rest⟩ := passes_of_rest_eq hrest
        exact ⟨c, rest.takeWhile more, rfl, hc, fun d hd => List.mem_takeWhile_imp hd,
          stops_dropWhile more rest, hpass.trans (skipWhile_passes _ more)⟩
      case isFalse => cases h
  · rintro ⟨c, cs, rfl, hc, hcs, hstop, hrest, hplace⟩
    have hskip : (⟨m.place.after c, cs ++ m'.rest⟩ : Mark).skipWhile more = m' :=
      skipWhile_eq_iff.2 ⟨cs, hcs, hstop, rfl, hplace⟩
    have htake : (cs ++ m'.rest).takeWhile more = cs := takeWhile_append_of_stops hcs hstop
    simp only [hrest, List.cons_append, if_pos hc, htake, hskip]

/-- A word that is found is one, and it is the longest. -/
theorem isWord_of_word? {first : Char → Bool} {word : String}
    (h : m.word? first isNameChar = some (word, m')) :
    isWord first word = true ∧ Stops isNameChar m'.rest := by
  obtain ⟨c, cs, rfl, hc, hcs, hstop, -⟩ := word?_eq_some_iff.1 h
  exact ⟨isWord_iff.2 ⟨c, cs, rfl, hc, hcs⟩, hstop⟩

theorem word?_eq_none_iff {first more : Char → Bool} :
    m.word? first more = none ↔ Stops first m.rest := by
  unfold word?
  cases m.rest with
  | nil => simp
  | cons c rest => simp [stops_cons]

/-- The end of a line and the indentation behind it, which is the longest one. -/
theorem indent?_eq_some_iff {width : Nat} :
    m.indent? = some (width, m') ↔
      ∃ tail pad, (∀ c ∈ tail, isLineBlank c = true) ∧ (∀ c ∈ pad, isPad c = true) ∧
        pad.length = width ∧ width ≠ 0 ∧ Stops isPad m'.rest ∧
        m.Passes (tail ++ '\n' :: pad) m' := by
  -- A line feed is no line blank, so the first one ends the line.
  have hfeed : isLineBlank '\n' = false := by decide
  unfold indent?
  constructor
  · intro h
    simp only at h
    split at h
    case h_1 rest hrest =>
      split at h
      case isTrue => cases h
      case isFalse hwidth =>
        simp only [Option.some.injEq, Prod.mk.injEq] at h
        obtain ⟨rfl, rfl⟩ := h
        have hline : (m.skipWhile isLineBlank).Passes ['\n']
            ⟨(m.skipWhile isLineBlank).place.after '\n', rest⟩ := passes_of_rest_eq hrest
        refine ⟨m.rest.takeWhile isLineBlank, rest.takeWhile isPad,
          fun c hc => List.mem_takeWhile_imp hc, fun c hc => List.mem_takeWhile_imp hc, rfl,
          hwidth, stops_dropWhile isPad rest, ?_⟩
        have := ((m.skipWhile_passes isLineBlank).trans hline).trans (skipWhile_passes _ isPad)
        simpa using this
    case h_2 => cases h
  · rintro ⟨tail, pad, htail, hpad, rfl, hwidth, hstop, hrest, hplace⟩
    have hend : m.skipWhile isLineBlank
        = ⟨m.place.afterAll tail, '\n' :: (pad ++ m'.rest)⟩ :=
      skipWhile_eq_iff.2 ⟨tail, htail, by simpa using hfeed, by simpa using hrest, rfl⟩
    have hnext : (⟨(m.place.afterAll tail).after '\n', pad ++ m'.rest⟩ : Mark).skipWhile isPad
        = m' :=
      skipWhile_eq_iff.2 ⟨pad, hpad, hstop, rfl, by rw [hplace, Place.afterAll_append]; rfl⟩
    have htake : (pad ++ m'.rest).takeWhile isPad = pad := takeWhile_append_of_stops hpad hstop
    simp only [hend, htake, if_neg hwidth, hnext]

/-- A character that is read is passed, unless it ends a line. -/
theorem read?_passes {c : Char} (h : m.read? = some (c, m')) (hc : c ≠ '\n') :
    m.Passes [c] m' := by
  unfold read? at h
  split at h
  case h_1 => cases h
  case h_2 d rest hrest =>
    simp only [Option.some.injEq, Prod.mk.injEq] at h
    obtain ⟨rfl, rfl⟩ := h
    exact ⟨hrest, Place.after_eq_right hc m.place⟩

/-! ### The marks of a text -/

/-- The mark belongs to the text. -/
def On (text : String) (m : Mark) : Prop := ∃ cs, (start text).Passes cs m

variable {text : String}

namespace On

theorem start (text : String) : On text (.start text) := ⟨[], .refl _⟩

theorem passes (h : On text m) (hpass : m.Passes cs m') : On text m' := by
  obtain ⟨before, hbefore⟩ := h
  exact ⟨before ++ cs, hbefore.trans hpass⟩

theorem skipSpace (h : On text m) : On text m.skipSpace := h.passes m.skipSpace_passes

/-- **A mark of a text is known by its offset.** -/
theorem eq_of_offset_eq (h : On text m) (h' : On text m')
    (hoffset : m.place.offset = m'.place.offset) : m = m' := by
  obtain ⟨cs, hrest, hplace⟩ := h
  obtain ⟨ds, hrest', hplace'⟩ := h'
  have hcs : cs = ds := by
    refine Place.eq_of_offset_afterAll_eq (p := .start) (hrest.symm.trans hrest') ?_
    rw [hplace, hplace'] at hoffset
    exact hoffset
  subst hcs
  exact Passes.unique ⟨hrest, hplace⟩ ⟨hrest', hplace'⟩

end On

end Mark

end DeclLang.Text
