import DeclLang.Proofs.Grammar.Location
import DeclLang.Proofs.Grammar.Spelling

/-!
# What a rule records

A rule that fails for want of something records that, once, and a rule that returns records nothing
(`Terse`).  So a type definition that is refused is refused for one reason.

A list of types always returns, and ends where no type can be read.  If a bracket was opened there,
what is wrong with it is recorded, and the list ends before that bracket (`Halts`).  A signature is
read all the same (`run_signature`), and its reader stands before the bracket then.
-/

namespace DeclLang

namespace Grammar

open Text Scanner

variable {α β : Type} {r r' : Reading}

/-! ### One diagnostic at most -/

/-- A rule that returns has recorded nothing.  A rule that fails has recorded one diagnostic at
most, and says in it what is missing. -/
def Terse (x : OptionT ReadM α) : Prop :=
  ∀ r, ∃ new : Option Diagnostic, (ReadM.run x.run r).2.recorded = r.recorded ++ new.toList ∧
    (∀ d ∈ new, d.kind ≠ .syntaxError) ∧ ((ReadM.run x.run r).1.isSome = true → new = none)

namespace Terse

variable {x y : OptionT ReadM α}

theorem of_mute (h : Mute x.run) : Terse x := fun r =>
  ⟨none, by rw [h r]; simp, by simp, fun _ => rfl⟩

theorem succeed (a : α) : Terse (pure a) := of_mute (.pure (some a))

theorem fail : Terse (failure : OptionT ReadM α) := of_mute (.pure none)

theorem next {f : α → OptionT ReadM β} (h : Terse x) (hf : ∀ a, Terse (f a)) :
    Terse (x >>= f) := by
  intro r
  obtain ⟨new, hrecorded, hkind, hsome⟩ := h r
  rw [ReadM.run_next]
  rcases hrun : ReadM.run x.run r with ⟨_ | a, r'⟩ <;> rw [hrun] at hrecorded hsome
  · exact ⟨new, hrecorded, hkind, nofun⟩
  · -- what was recorded before is nothing
    obtain rfl := hsome rfl
    obtain ⟨new', hrecorded', hkind', hsome'⟩ := hf a r'
    refine ⟨new', ?_, hkind', hsome'⟩
    rw [hrecorded', hrecorded, Option.toList_none, List.append_nil]

theorem orElse (hx : Mute x.run) (hy : Terse y) : Terse (x <|> y) := by
  intro r
  have hmute := hx r
  rw [ReadM.run_orElse]
  rcases hrun : ReadM.run x.run r with ⟨_ | a, r'⟩ <;> rw [hrun] at hmute
  · rw [← hmute]
    exact hy r'
  · exact ⟨none, by rw [hmute]; simp, by simp, fun _ => rfl⟩

theorem recorded_eq {a : α} (h : Terse x) (hrun : ReadM.run x.run r = (some a, r')) :
    r'.recorded = r.recorded := by
  obtain ⟨new, hrecorded, -, hsome⟩ := h r
  rw [hrun] at hrecorded hsome
  obtain rfl := hsome rfl
  exact hrecorded.trans (List.append_nil _)

theorem attempt (h : Terse x) : Terse (attempt x) := by
  intro r
  obtain ⟨new, hrecorded, hkind, hsome⟩ := h r
  refine ⟨new, ?_, hkind, ?_⟩ <;> rw [ReadM.run_attempt] <;>
    rcases hrun : ReadM.run x.run r with ⟨_ | a, r'⟩ <;> rw [hrun] at hrecorded hsome
  · exact hrecorded
  · exact hrecorded
  · nofun
  · exact hsome

theorem refuse {kind : Diagnostic.Kind} (h : kind ≠ .syntaxError) :
    Terse (refuse kind : OptionT ReadM α) := fun r =>
  ⟨some ⟨kind, ⟨r.filename, r.mark.place⟩⟩, rfl, by simpa using h, nofun⟩

theorem expect (text : String) {kind : Diagnostic.Kind} (h : kind ≠ .syntaxError) :
    Terse (expect (m := ReadM) text kind) :=
  orElse (.keyword text) (refuse h)

end Terse

/-! ### Type definitions -/

/-- A line of a member block records that it is too deep, or nothing. -/
theorem recorded_of_line {block : Option Nat} {found : Option Line}
    (h : ReadM.run (line block).run r = (found, r')) :
    r'.recorded = r.recorded ∨
      found = some .deeper ∧ ∃ d, d.kind ≠ .syntaxError ∧ r'.recorded = r.recorded ++ [d] := by
  have hindent := Mute.indent r
  rw [line, ReadM.run_next] at h
  rcases hrun : ReadM.run indent.run r with ⟨_ | width, r₁⟩ <;> rw [hrun] at h hindent
  · cases h
    exact .inl hindent
  simp only at h
  rw [← hindent]
  by_cases deeper : block.any (· < width) = true
  · simp only [deeper, ↓reduceIte] at h
    cases h
    exact .inr ⟨rfl, ⟨.unexpectedIndent, ⟨r₁.filename, r₁.mark.place⟩⟩, nofun, rfl⟩
  simp only [deeper] at h
  by_cases shallower : block.any (width < ·) = true
  · simp only [shallower, ↓reduceIte] at h
    cases h
    exact .inl rfl
  simp only [shallower] at h
  have hmember : Mute (do
      let tag ← typeName
      let payload ← typeName
      return Line.member width { tag, payload } : OptionT ReadM Line).run :=
    Mute.typeName.next fun _ => Mute.typeName.next fun _ => .pure _
  exact .inl ((congrArg (fun p => p.2.recorded) h).symm.trans (hmember r₁))

namespace Terse

theorem members (block : Option Nat) (k : Nat) : Terse (members (m := ReadM) block k) := by
  induction k generalizing block with
  | zero => exact succeed []
  | succ k ih =>
    intro r
    rw [members_succ, ReadM.run_next, ReadM.run_optional, ReadM.run_attempt]
    rcases hrun : ReadM.run (line block).run r with ⟨_ | found, r₁⟩
    · obtain h | ⟨h, -⟩ := recorded_of_line hrun
      · exact ⟨none, h.trans (List.append_nil _).symm, by simp, fun _ => rfl⟩
      · cases h
    obtain h | ⟨h, d, hkind, hrecorded⟩ := recorded_of_line hrun
    · rw [← h]
      match found with
      | .member width member => exact (ih (some width)).next (fun ms => succeed (member :: ms)) r₁
      | .deeper => exact fail r₁
      | .shallower => exact succeed [] r₁
    · cases h
      exact ⟨some d, hrecorded, by simpa using hkind, nofun⟩

theorem typeDefinition : Terse (typeDefinition (m := ReadM)) := by
  refine attempt ((of_mute (.keyword "type")).next fun _ => ?_)
  refine (orElse .typeName (refuse (by decide))).next fun name => ?_
  refine Terse.next (orElse (Mute.next .typeName fun _ => .pure _) (succeed none)) fun target => ?_
  cases target with
  | some target => exact succeed _
  | none =>
    refine (expect ":" (by decide)).next fun _ => ?_
    have hbound : Terse bound := of_mute fun _ => rfl
    refine hbound.next fun k => ?_
    refine (members none k).next fun ms => ?_
    cases ms with
    | nil => exact fail
    | cons first others => exact succeed _

end Terse

/-! ### Forms that begin here or not -/

theorem run_keyword_of_absent {text : String} (hspace : Stops isBlank r.mark.rest)
    (h : ¬ text.toList <+: r.mark.rest) : ReadM.run (keyword text).run r = (none, r) := by
  rw [ReadM.run_keyword, Mark.skipSpace_eq_self hspace, Mark.literal?_eq_none_iff.2 h]

/-- A form that does not begin here leaves no trace. -/
theorem run_attempt_of_absent {text : String} {f : Unit → OptionT ReadM α}
    (hspace : Stops isBlank r.mark.rest) (h : ¬ text.toList <+: r.mark.rest) :
    ReadM.run (attempt (keyword text >>= f)).run r = (none, r) := by
  rw [ReadM.run_attempt, ReadM.run_next, run_keyword_of_absent hspace h]

theorem mark_of_attempt_none {x : OptionT ReadM α}
    (h : ReadM.run (attempt x).run r = (none, r')) : r'.mark = r.mark := by
  rw [ReadM.run_attempt] at h
  split at h <;> cases h
  rfl

/-- If nothing else begins as a form does, then the beginning decides whether it is that form. -/
theorem run_attempt_orElse {text : String} {f : Unit → OptionT ReadM α} {y : OptionT ReadM α}
    (hspace : Stops isBlank r.mark.rest)
    (hy : text.toList <+: r.mark.rest → ∀ r₁ : Reading, r₁.mark = r.mark →
      ReadM.run y.run r₁ = (none, r₁)) :
    ReadM.run (attempt (keyword text >>= f) <|> y).run r =
      if text.toList <+: r.mark.rest then ReadM.run (attempt (keyword text >>= f)).run r
      else ReadM.run y.run r := by
  rw [ReadM.run_orElse]
  by_cases hbegun : text.toList <+: r.mark.rest
  · rw [if_pos hbegun]
    rcases hrun : ReadM.run (attempt (keyword text >>= f)).run r with ⟨_ | a, r₁⟩
    · exact hy hbegun r₁ (mark_of_attempt_none hrun)
    · rfl
  · rw [if_neg hbegun, run_attempt_of_absent hspace hbegun]

/-- The form of a type expression is known from its first character. -/
theorem run_typeExpr (r : Reading) :
    ReadM.run typeExpr.run r =
      match r.mark.skipSpace.word? isTypeStart isNameChar with
      | some (name, m) => (some (.plain name), { r with mark := m })
      | none =>
        if ['['] <+: r.mark.skipSpace.rest then
          ReadM.run arrayType.run { r with mark := r.mark.skipSpace }
        else if ['\x7b'] <+: r.mark.skipSpace.rest then
          ReadM.run mapType.run { r with mark := r.mark.skipSpace }
        else
          ReadM.run (do keyword "()"; return TypeExpr.unit : OptionT ReadM _).run
            { r with mark := r.mark.skipSpace } := by
  rw [typeExpr, ReadM.run_orElse, ReadM.run_map, ReadM.run_typeName]
  cases r.mark.skipSpace.word? isTypeStart isNameChar with
  | some name => rfl
  | none =>
    have hspace := r.mark.stops_skipSpace
    -- Behind a bracket there is no other form, and behind a brace neither.
    simp only [arrayType, mapType, Option.map_none]
    refine (run_attempt_orElse hspace ?_).trans
      (if_congr Iff.rfl rfl (run_attempt_orElse hspace ?_))
    all_goals
      rintro ⟨more, hmore⟩ r₁ (hr₁ : r₁.mark = r.mark.skipSpace)
      change _ = r.mark.skipSpace.rest at hmore
      rw [← hr₁] at hspace hmore
    · rw [ReadM.run_orElse, run_attempt_of_absent hspace (by simp [← hmore])]
      simp only
      rw [ReadM.run_next, run_keyword_of_absent hspace (by simp [← hmore])]
    · rw [ReadM.run_next, run_keyword_of_absent hspace (by simp [← hmore])]

/-- Where there is no type expression, the blanks are passed. -/
theorem mark_of_typeExpr_none {r' : Reading} (h : ReadM.run typeExpr.run r = (none, r')) :
    r'.mark = r.mark.skipSpace := by
  rw [run_typeExpr] at h
  cases hname : r.mark.skipSpace.word? isTypeStart isNameChar with
  | some found => rw [hname] at h; cases h
  | none =>
    rw [hname] at h
    simp only at h
    split at h
    case isTrue => exact mark_of_attempt_none h
    case isFalse =>
      split at h
      case isTrue => exact mark_of_attempt_none h
      case isFalse =>
        rw [ReadM.run_next, ReadM.run_keyword, Mark.skipSpace_skipSpace] at h
        cases hunit : r.mark.skipSpace.literal? "()".toList with
        | some m => simp only [hunit] at h; cases h
        | none => simp only [hunit] at h; cases h; rfl

/-! ### Type expressions -/

/-- Nothing was recorded on the way, or what is wrong with the bracket that the reader has been
brought back to. -/
def Halts (r r' : Reading) : Prop :=
  r'.recorded = r.recorded ∨ ∃ d, r'.recorded = r.recorded ++ [d] ∧ d.kind ≠ .syntaxError ∧
    r'.mark.place.offset < d.location.place.offset ∧
      ∃ c ∈ r'.mark.rest.head?, c = '[' ∨ c = '\x7b'

theorem Halts.of_recorded_eq {r₁ : Reading} (h : r₁.recorded = r.recorded) (hhalts : Halts r₁ r') :
    Halts r r' := by
  rwa [Halts, ← h]

/-- From here, the rule returns and records nothing, or it fails before a bracket at most. -/
def Halting (x : OptionT ReadM α) (r : Reading) : Prop :=
  ∀ r', (∀ a, ReadM.run x.run r = (some a, r') → r'.recorded = r.recorded) ∧
    (ReadM.run x.run r = (none, r') → Halts r r')

namespace Halting

theorem of_mute {x : OptionT ReadM α} (h : Mute x.run) (r : Reading) : Halting x r := by
  have hrecorded {found : Option α} {r' : Reading} (hrun : ReadM.run x.run r = (found, r')) :
      r'.recorded = r.recorded := (congrArg (fun p => p.2.recorded) hrun).symm.trans (h r)
  exact fun r' => ⟨fun a hrun => hrecorded hrun, fun hrun => .inl (hrecorded hrun)⟩

/-- A form that begins with a bracket and fails leaves what it has recorded, located behind the
bracket. -/
theorem of_bracket {text : String} {f : Unit → OptionT ReadM α} {c : Char}
    (htext : text.toList = [c]) (hc : c = '[' ∨ c = '\x7b') (hopen : [c] <+: r.mark.rest)
    (hterse : Terse (f ())) (hlocated : Located _ (f ()).run (f ()).run) :
    Halting (attempt (keyword text >>= f)) r := by
  intro r'
  refine ⟨fun a hrun => ?_, fun hrun => ?_⟩
  · exact ((Terse.of_mute (.keyword text)).next fun _ => hterse).attempt.recorded_eq hrun
  have hmark := mark_of_attempt_none hrun
  obtain ⟨rest, hrest⟩ := hopen
  have hspace : Stops isBlank r.mark.rest := by
    rw [← hrest]
    rcases hc with rfl | rfl <;> exact stops_cons.2 (by decide)
  have hpass := Mark.passes_of_rest_eq (htext ▸ hrest.symm)
  generalize ({ place := r.mark.place.afterAll text.toList, rest } : Mark) = m at hpass
  rw [ReadM.run_attempt, ReadM.run_next, ReadM.run_keyword, Mark.skipSpace_eq_self hspace,
    Mark.literal?_eq_some_iff.2 hpass] at hrun
  obtain ⟨new, hrecorded, hkind, -⟩ := hterse { r with mark := m }
  obtain ⟨new', hrecorded', hlocates⟩ := hlocated.2.2 { r with mark := m }
  obtain rfl : new' = new.toList := List.append_cancel_left (hrecorded'.symm.trans hrecorded)
  simp only at hrun
  rcases hf : ReadM.run (f ()).run { r with mark := m } with ⟨_ | a, r₁⟩ <;>
    rw [hf] at hrun hrecorded <;> cases hrun
  cases new with
  | none => exact .inl (hrecorded.trans (List.append_nil _))
  | some d =>
    obtain ⟨cs, m', hpass', hlocation⟩ := hlocates d (by simp)
    refine .inr ⟨d, hrecorded, hkind d rfl, ?_, c, by rw [← hrest]; rfl, hc⟩
    rw [hlocation]
    exact (hpass.offset_lt (by simp [htext])).trans_le hpass'.offset_le

theorem arrayType (hopen : ['['] <+: r.mark.rest) : Halting arrayType r := by
  refine of_bracket rfl (.inl rfl) hopen ((Terse.of_mute .typeName).next fun element => ?_)
    (locates.next locates.typeName fun element => ?_)
  · exact (Terse.expect "]" (by decide)).next fun _ => .succeed _
  · exact locates.next (locates.expect "]" _) fun _ => locates.succeed _

theorem mapType (hopen : ['\x7b'] <+: r.mark.rest) : Halting mapType r := by
  refine of_bracket rfl (.inr rfl) hopen ((Terse.of_mute .typeName).next fun key => ?_)
    (locates.next locates.typeName fun key => ?_)
  · refine (Terse.expect ":" (by decide)).next fun _ => ?_
    refine (Terse.orElse .typeName (.refuse (by decide))).next fun value => ?_
    exact (Terse.expect "\x7d" (by decide)).next fun _ => .succeed _
  · refine locates.next (locates.expect ":" _) fun _ => ?_
    refine locates.next (locates.orElse locates.typeName (locates.refuse _)) fun value => ?_
    exact locates.next (locates.expect "\x7d" _) fun _ => locates.succeed _

theorem typeExpr (r : Reading) : Halting typeExpr r := by
  intro r'
  rw [run_typeExpr]
  cases r.mark.skipSpace.word? isTypeStart isNameChar with
  | some found =>
    refine ⟨fun a h => ?_, nofun⟩
    cases h
    rfl
  | none =>
    simp only
    split
    case isTrue hopen => exact arrayType hopen r'
    case isFalse =>
      split
      case isTrue hopen => exact mapType hopen r'
      case isFalse => exact of_mute (Mute.next (.keyword "()") fun _ => .pure _) _ r'

end Halting

/-- A list of types ends before a bracket that was given up, or records nothing. -/
theorem halts_many (k : Nat) (r : Reading) : Halts r (ReadM.run (many typeExpr k).run r).2 := by
  induction k generalizing r with
  | zero => exact .inl rfl
  | succ k ih =>
    rw [many_succ, ReadM.run_next, ReadM.run_optional]
    rcases hrun : ReadM.run typeExpr.run r with ⟨_ | t, r₁⟩
    · exact (Halting.typeExpr r r₁).2 hrun
    · have hrecorded := (Halting.typeExpr r r₁).1 t hrun
      have hothers := Halts.of_recorded_eq hrecorded (ih r₁)
      simp only
      rw [ReadM.run_next]
      rcases hmany : ReadM.run (many typeExpr k).run r₁ with ⟨_ | ts, r₂⟩ <;>
        rw [hmany] at hothers <;> exact hothers

theorem halts_typeExprs (r : Reading) : Halts r (ReadM.run typeExprs.run r).2 := by
  have hmany := halts_many (r.mark.rest.length + 1) r
  change Halts r (ReadM.run (many typeExpr (r.mark.rest.length + 1) >>= fun types => _).run r).2
  rw [ReadM.run_next]
  rcases hrun : ReadM.run (many typeExpr (r.mark.rest.length + 1)).run r with ⟨_ | types, r₁⟩ <;>
    rw [hrun] at hmany
  · exact hmany
  · cases types <;> exact hmany

/-- The types behind the sign are another list.  Behind an open bracket there is no sign. -/
theorem halts_outputs {r₁ : Reading} (h : Halts r r₁) :
    Halts r (ReadM.run ((do keyword "="; typeExprs) <|> pure none : OptionT ReadM _).run r₁).2 := by
  rw [ReadM.run_orElse, ReadM.run_next, ReadM.run_keyword]
  rcases h with hrecorded | ⟨d, hrecorded, hkind, hlt, c, hc, hbracket⟩
  · refine .of_recorded_eq hrecorded ?_
    cases r₁.mark.skipSpace.literal? "=".toList with
    | none => exact .inl rfl
    | some m =>
      have htypes := halts_typeExprs { r₁ with mark := m }
      simp only
      rcases hrun : ReadM.run typeExprs.run { r₁ with mark := m } with ⟨_ | types, r₂⟩ <;>
        rw [hrun] at htypes <;> exact htypes
  · obtain ⟨more, hrest⟩ := List.head?_eq_some_iff.1 hc
    have hspace : Stops isBlank r₁.mark.rest := by
      rw [hrest, stops_cons]
      rcases hbracket with rfl | rfl <;> decide
    have hsign : ¬ "=".toList <+: r₁.mark.rest := by
      rcases hbracket with rfl | rfl <;> simp [hrest]
    rw [Mark.skipSpace_eq_self hspace, Mark.literal?_eq_none_iff.2 hsign]
    exact .inr ⟨d, hrecorded, hkind, hlt, c, hc, hbracket⟩

/-! ### Signatures -/

/-- What comes behind the colons of a signature is read, whatever it is. -/
theorem run_signature_types (name : String) (r : Reading) :
    ∃ s r' more, ReadM.run (do
        let inputs ← typeExprs
        let outputs ← (do keyword "="; typeExprs) <|> pure none
        return { name, inputs, outputs } : OptionT ReadM Signature).run r = (some s, r') ∧
      s.name = name ∧ r.mark.Passes more r'.mark ∧ Halts r r' := by
  have hinputs := halts_typeExprs r
  obtain ⟨cs, -, hpass, -⟩ := advances.typeExprs.2 r
  have hsome := Succeeds.typeExprs r
  rw [ReadM.run_next]
  rcases hrun : ReadM.run typeExprs.run r with ⟨_ | inputs, r₁⟩ <;> rw [hrun] at hinputs hpass hsome
  · cases hsome
  have houtputs := halts_outputs hinputs
  obtain ⟨ds, -, hpass', -⟩ := (advances.orElse (advances.next (advances.keyword "=")
    fun _ => advances.typeExprs) (advances.succeed none)).2 r₁
  have hsome' := Succeeds.orElse (x := do keyword "="; typeExprs) (.succeed none) r₁
  simp only
  rw [ReadM.run_next]
  rcases hrun' : ReadM.run ((do keyword "="; typeExprs) <|> pure none : OptionT ReadM _).run r₁ with
    ⟨_ | outputs, r₂⟩ <;> rw [hrun'] at houtputs hpass' hsome'
  · cases hsome'
  · refine ⟨⟨name, inputs, outputs⟩, r₂, cs ++ ds, ?_, rfl, hpass.trans hpass', houtputs⟩
    rw [hrun']
    rfl

/-- Without its name and its colons a signature leaves no trace, and with them it is read. -/
theorem run_signature (r : Reading) :
    ReadM.run signature.run r = (none, r) ∨
      ∃ s r' gap more, ReadM.run signature.run r = (some s, r') ∧
        isWord isVariableStart s.name = true ∧ (∀ c ∈ gap, isBlank c = true) ∧
        r.mark.skipSpace.Passes (s.name.toList ++ (gap ++ ':' :: ':' :: more)) r'.mark ∧
        Halts r r' := by
  rw [signature, ReadM.run_attempt, ReadM.run_next, ReadM.run_identifier]
  cases hname : r.mark.skipSpace.word? isVariableStart isNameChar with
  | none => exact .inl rfl
  | some found =>
    obtain ⟨name, m₁⟩ := found
    simp only
    rw [ReadM.run_next, ReadM.run_keyword]
    cases hcolons : m₁.skipSpace.literal? "::".toList with
    | none => exact .inl rfl
    | some m₂ =>
      obtain ⟨s, r', more, hrun, rfl, hmore, hhalts⟩ :=
        run_signature_types name { r with mark := m₂ }
      obtain ⟨c, cs, hword, hc, hcs, -, hpass⟩ := Mark.word?_eq_some_iff.1 hname
      have hpass' := ((hpass.trans m₁.skipSpace_passes).trans
        (Mark.literal?_eq_some_iff.1 hcolons)).trans hmore
      refine .inr ⟨s, r', m₁.rest.takeWhile isBlank, more, ?_,
        isWord_iff.2 ⟨c, cs, hword, hc, hcs⟩, fun c hc => List.mem_takeWhile_imp hc, ?_, hhalts⟩
      · simp only [hrun]
      · simpa [hword] using hpass'

end Grammar

end DeclLang
