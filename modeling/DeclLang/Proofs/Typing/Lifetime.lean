import Mathlib.Logic.Relation
import Mathlib.Order.WellFounded
import DeclLang.Proofs.Typing.MemberResolution

/-!
# The life of a scope

A scope starts out with the builtin types and is used again and again: single definitions, whole
modules, ids drawn for nothing.  Some of these uses fail, and a failure may spend an id.
`Scope.Step` is one such use, and `Scope.Reachable` any number of them.

`Scope.Sound` is what every scope keeps on the way (`Scope.Sound.step`).  It ties the names, the
types that were captured when a definition was checked, and the counter of ids together:

* a name that is bound keeps its type (`Scope.Reachable.get?_eq`), so what a type captured is what
  the names of its definition are still bound to;
* the id of an algebraic type is drawn before its members are looked up, so it is behind theirs,
  and no two types share one;
* the members and their table are written together, so they agree.

A type therefore never contains itself (`Scope.Sound.wellFounded_mentions`).
`Scope.sound_of_reachable` puts this together.
-/

namespace DeclLang.Typing

namespace Scope

/-! ### Uses of a scope -/

/-- One use of a scope, whether it succeeds or not. -/
inductive Step (s : Scope) : Scope → Prop
  | define (d : TypeDefinition) : Step s (s.define d).2
  | checkModule (m : Module) : Step s (s.checkModule m).2
  | drawId : Step s s.drawId.2
  | newUserType (definition : Algebraic) : Step s (s.newUserType definition).2

/-- The scope can become another one by using it. -/
def Reachable (s s' : Scope) : Prop := Relation.ReflTransGen Step s s'

/-- The definition of the type bound to a name has a member with this payload. -/
def Mentions (s : Scope) (payload name : String) : Prop :=
  ∃ id a members table, s.get? name = some (.user id a members table) ∧
    ∃ m ∈ a.members, m.payload = payload

variable {s s' s'' : Scope} {d : TypeDefinition}

/-! ### Ids are never taken back -/

theorem lastId_le_typeOf (s : Scope) (d : TypeDefinition) :
    s.lastId.val ≤ (s.typeOf d).2.lastId.val := by
  cases d with
  | ofAlias a =>
    rw [typeOf_ofAlias]
    cases s.get? a.target <;> exact le_rfl
  | ofAlgebraic a =>
    rw [typeOf_ofAlgebraic]
    exact Nat.le_succ s.lastId.val

theorem lastId_insert {name : String} {type : Ty} (h : s.insert name type = .ok s') :
    s'.lastId = s.lastId := by
  unfold insert at h
  split at h
  · cases h
  · cases h; rfl

theorem lastId_le_define (s : Scope) (d : TypeDefinition) :
    s.lastId.val ≤ (s.define d).2.lastId.val := by
  have htypeOf := s.lastId_le_typeOf d
  unfold define
  split
  · exact le_rfl
  rcases htype : s.typeOf d with ⟨e | type, s₁⟩ <;> rw [htype] at htypeOf
  · exact htypeOf
  · simp only
    cases hinsert : s₁.insert d.name type with
    | error e => exact htypeOf
    | ok s₂ => rw [lastId_insert hinsert]; exact htypeOf

/-! ### What one definition adds -/

/-- The types that are bound behind a definition are those that were, and the algebraic type if it
is one. -/
theorem get?_of_extends (hadmits : Admits (s.contains · = true) d) (hext : s.Extends [d] s')
    {name : String} {t : Ty} (h : s'.get? name = some t) :
    (∃ name', s.get? name' = some t) ∨
      ∃ a members, d = .ofAlgebraic a ∧ name = a.name ∧
        t = .user s.lastId.next a members (TagTable.ofMembers a.members members) ∧
        a.members.map (fun m => s.get? m.payload) = members.map some := by
  rcases (hext.contains name).1 (contains_iff.2 ⟨t, h⟩) with hold | hnew
  · exact .inl ⟨name, by rw [← hext.get?_of_contains hold, h]⟩
  obtain rfl : name = d.name := by simpa using hnew
  cases d with
  | ofAlias a =>
    have htarget : s.contains a.target = true :=
      hadmits.2 a.target (by simp [TypeDefinition.references])
    obtain ⟨-, hget⟩ := hext.get?_alias List.mem_cons_self
    exact .inl ⟨a.target, by rw [← hext.get?_of_contains htarget, ← hget]; exact h⟩
  | ofAlgebraic a =>
    obtain ⟨members, hmap, hget⟩ := hext.get?_algebraic (i := 0) rfl
    obtain rfl := Option.some.inj (hget.symm.trans h)
    refine .inr ⟨a, members, rfl, rfl, rfl, ?_⟩
    rw [← hmap]
    refine List.map_congr_left fun m hm => (hext.get?_of_contains (hadmits.2 m.payload ?_)).symm
    simpa [TypeDefinition.references] using ⟨m, hm, rfl⟩

/-! ### The invariant -/

/-- What every scope keeps. -/
structure Sound (s : Scope) : Prop where
  /-- The builtin types keep their names. -/
  int : s.get? "Int" = some .int
  string : s.get? "String" = some .string
  /-- The ids of builtin types are never drawn. -/
  lastBuiltin_le : TypeId.lastBuiltin.val ≤ s.lastId.val
  /-- A user type has an id that was drawn. -/
  id_bounds {name : String} {id : TypeId} {a : Algebraic} {members : List Ty}
      {table : TagTable} :
    s.get? name = some (.user id a members table) →
      TypeId.lastBuiltin.val < id.val ∧ id.val ≤ s.lastId.val
  /-- A user type is bound to the name of its definition, whatever aliases it has. -/
  get?_name {name : String} {id : TypeId} {a : Algebraic} {members : List Ty}
      {table : TagTable} :
    s.get? name = some (.user id a members table) → s.get? a.name = some (.user id a members table)
  /-- A type is known by its id. -/
  eq_of_id_eq {name name' : String} {t t' : Ty} :
    s.get? name = some t → s.get? name' = some t' → t.id = t'.id → t = t'
  /-- The members of a user type are what the payloads of its definition are bound to. -/
  members {name : String} {id : TypeId} {a : Algebraic} {members : List Ty}
      {table : TagTable} :
    s.get? name = some (.user id a members table) →
      a.members.map (fun m => s.get? m.payload) = members.map some
  /-- The table of a user type is that of its members. -/
  table {name : String} {id : TypeId} {a : Algebraic} {members : List Ty}
      {table : TagTable} :
    s.get? name = some (.user id a members table) → table = .ofMembers a.members members
  /-- The members of a user type have ids drawn before its own. -/
  id_lt {name : String} {id : TypeId} {a : Algebraic} {members : List Ty}
      {table : TagTable} :
    s.get? name = some (.user id a members table) → ∀ t ∈ members, t.id.val < id.val

namespace Sound

theorem builtin : builtin.Sound := by
  have hbound {name : String} {t : Ty} (h : Scope.builtin.get? name = some t) :
      t = .int ∧ name = "Int" ∨ t = .string ∧ name = "String" := by
    have hget : Scope.builtin.get? name =
        if name = "Int" then some .int else if name = "String" then some .string else none := by
      simp only [get?, Scope.builtin, List.lookup_cons, List.lookup_nil]
      by_cases hint : name = "Int"
      · simp [hint]
      · by_cases hstring : name = "String"
        · simp [hstring]
        · simp [hint, hstring, beq_false_of_ne hint, beq_false_of_ne hstring]
    rw [hget] at h
    split_ifs at h with hint hstring <;> cases h
    · exact .inl ⟨rfl, hint⟩
    · exact .inr ⟨rfl, hstring⟩
  have hnone {name : String} {id : TypeId} {a : Algebraic} {members : List Ty}
      {table : TagTable} : ¬ Scope.builtin.get? name = some (.user id a members table) := by
    intro h
    rcases hbound h with ⟨h, -⟩ | ⟨h, -⟩ <;> cases h
  refine ⟨rfl, rfl, le_rfl, fun h => absurd h hnone, fun h => absurd h hnone, fun h h' hid => ?_,
    fun h => absurd h hnone, fun h => absurd h hnone, fun h => absurd h hnone⟩
  rcases hbound h with ⟨rfl, -⟩ | ⟨rfl, -⟩ <;> rcases hbound h' with ⟨rfl, -⟩ | ⟨rfl, -⟩
  · rfl
  · cases hid
  · cases hid
  · rfl

theorem id_le (h : s.Sound) {name : String} {t : Ty} (ht : s.get? name = some t) :
    t.id.val ≤ s.lastId.val := by
  have hbuiltin : 63 ≤ s.lastId.val := h.lastBuiltin_le
  cases t with
  | int => exact Nat.le_trans (by decide) hbuiltin
  | string => exact Nat.le_trans (by decide) hbuiltin
  | user id a members table => exact (h.id_bounds ht).2

/-- Ids may be spent without changing a binding. -/
theorem spend (h : s.Sound) (hbindings : s'.bindings = s.bindings)
    (hid : s.lastId.val ≤ s'.lastId.val) : s'.Sound := by
  have hget : s'.get? = s.get? := by
    funext name
    rw [get?, get?, hbindings]
  refine ⟨hget ▸ h.int, hget ▸ h.string, h.lastBuiltin_le.trans hid, fun ht => ?_, ?_, ?_, ?_, ?_,
    ?_⟩
  · rw [hget] at ht
    exact ⟨(h.id_bounds ht).1, (h.id_bounds ht).2.trans hid⟩
  all_goals rw [hget]
  · exact h.get?_name
  · exact h.eq_of_id_eq
  · exact h.members
  · exact h.table
  · exact h.id_lt

/-- A definition that is in order may be bound. -/
theorem bind (h : s.Sound) (hadmits : Admits (s.contains · = true) d) (hext : s.Extends [d] s')
    (hid : s'.lastId.val = s.lastId.val + [d].countP TypeDefinition.isAlgebraic) : s'.Sound := by
  have hkept {name : String} {t : Ty} (ht : s.get? name = some t) : s'.get? name = some t := by
    rw [hext.get?_of_contains (contains_iff.2 ⟨t, ht⟩), ht]
  have hmembers {ms : List Member} {types : List Ty}
      (hmap : ms.map (fun m => s.get? m.payload) = types.map some) :
      ms.map (fun m => s'.get? m.payload) = types.map some := by
    rw [← hmap]
    exact List.map_congr_left fun m hm => hext.get?_of_contains (contains_of_map_get? hmap hm)
  have hle : s.lastId.val ≤ s'.lastId.val := hid ▸ Nat.le_add_right _ _
  -- A new type has an id behind all ids of the scope.
  have hnew {name : String} {t : Ty} (ht : s.get? name = some t) : t.id ≠ s.lastId.next := by
    intro heq
    have := h.id_le ht
    rw [heq] at this
    exact absurd this (Nat.not_succ_le_self _)
  refine ⟨hkept h.int, hkept h.string, h.lastBuiltin_le.trans hle, fun ht => ?_, fun ht => ?_,
    fun ht ht' heq => ?_, fun ht => ?_, fun ht => ?_, fun ht => ?_⟩
  · rcases get?_of_extends hadmits hext ht with ⟨name', hold⟩ | ⟨a, members, rfl, -, heq, -⟩
    · exact ⟨(h.id_bounds hold).1, (h.id_bounds hold).2.trans hle⟩
    · cases heq
      exact ⟨Nat.lt_succ_of_le h.lastBuiltin_le, hid.ge⟩
  · rcases get?_of_extends hadmits hext ht with ⟨name', hold⟩ | ⟨a, members, rfl, rfl, heq, -⟩
    · exact hkept (h.get?_name hold)
    · cases heq
      exact ht
  · rcases get?_of_extends hadmits hext ht with ⟨name₁, hold⟩ | ⟨a, members, rfl, rfl, rfl, -⟩ <;>
      rcases get?_of_extends hadmits hext ht' with
        ⟨name₂, hold'⟩ | ⟨a', members', hd, hname, rfl, -⟩
    · exact h.eq_of_id_eq hold hold' heq
    · exact absurd heq (hnew hold)
    · exact absurd heq.symm (hnew hold')
    · -- both are the new type, which is bound to one name
      cases hd
      rw [hname] at ht'
      exact Option.some.inj (ht.symm.trans ht')
  · rcases get?_of_extends hadmits hext ht with ⟨name', hold⟩ | ⟨a, members, rfl, rfl, heq, hmap⟩
    · exact hmembers (h.members hold)
    · cases heq
      exact hmembers hmap
  · rcases get?_of_extends hadmits hext ht with ⟨name', hold⟩ | ⟨a, members, rfl, -, heq, -⟩
    · exact h.table hold
    · cases heq
      rfl
  · rcases get?_of_extends hadmits hext ht with ⟨name', hold⟩ | ⟨a, members, rfl, rfl, heq, hmap⟩
    · exact h.id_lt hold
    · cases heq
      intro t htype
      -- what is captured is bound already
      have hmem := List.mem_map_of_mem (f := some) htype
      rw [← hmap] at hmem
      obtain ⟨m, -, hm⟩ := List.mem_map.1 hmem
      exact Nat.lt_succ_of_le (h.id_le hm)

theorem define (h : s.Sound) (d : TypeDefinition) : (s.define d).2.Sound := by
  rcases admits_or_refused (s.contains · = true) d with hadmits | ⟨e, he⟩
  · obtain ⟨id, s', hdefine, hext, hid⟩ := define_of_admits hadmits
    rw [hdefine]
    exact h.bind hadmits hext hid
  · obtain ⟨s', hdefine, hbindings⟩ := define_of_refused he
    have hle := s.lastId_le_define d
    rw [hdefine] at hle ⊢
    exact h.spend hbindings hle

end Sound

/-- What a definition keeps, a list of definitions keeps, wherever it stops. -/
theorem defineAll_induction {P : Scope → Prop} (hdefine : ∀ s d, P s → P (s.define d).2)
    (h : P s) (ds : List TypeDefinition) : P (s.defineAll ds).2 := by
  induction ds generalizing s with
  | nil => exact h
  | cons d ds ih =>
    have hd := hdefine s d h
    unfold defineAll
    rcases hrun : s.define d with ⟨e | id, s'⟩ <;> rw [hrun] at hd
    · exact hd
    · exact ih hd

theorem Sound.step (h : s.Sound) (hstep : s.Step s') : s'.Sound := by
  cases hstep with
  | define d => exact h.define d
  | checkModule m => exact defineAll_induction (fun _ d hs => hs.define d) h m.typeDefinitions
  | drawId => exact h.spend rfl (Nat.le_succ _)
  | newUserType definition => exact h.spend rfl (Nat.le_succ _)

theorem Sound.of_reachable (h : s.Sound) (hreach : s.Reachable s') : s'.Sound := by
  induction hreach with
  | refl => exact h
  | tail _ hstep ih => exact ih.step hstep

/-! ### Bindings are never replaced -/

/-- All names keep their types. -/
def Keeps (s s' : Scope) : Prop := ∀ name, s.contains name = true → s'.get? name = s.get? name

namespace Keeps

theorem trans (h : s.Keeps s') (h' : s'.Keeps s'') : s.Keeps s'' := by
  intro name hname
  have hname' : s'.contains name = true := by rw [contains, h name hname]; exact hname
  rw [h' name hname', h name hname]

theorem of_bindings_eq (h : s'.bindings = s.bindings) : s.Keeps s' := by
  intro name _
  rw [get?, get?, h]

theorem define (s : Scope) (d : TypeDefinition) : s.Keeps (s.define d).2 := by
  rcases admits_or_refused (s.contains · = true) d with hadmits | ⟨e, he⟩
  · obtain ⟨id, s', hdefine, hext, -⟩ := define_of_admits hadmits
    rw [hdefine]
    exact fun name hname => hext.get?_of_contains hname
  · obtain ⟨s', hdefine, hbindings⟩ := define_of_refused he
    rw [hdefine]
    exact of_bindings_eq hbindings

theorem step (hstep : s.Step s') : s.Keeps s' := by
  cases hstep with
  | define d => exact define s d
  | checkModule m =>
    exact defineAll_induction (P := s.Keeps) (fun s' d h => h.trans (define s' d))
      (of_bindings_eq rfl) m.typeDefinitions
  | drawId => exact of_bindings_eq rfl
  | newUserType definition => exact of_bindings_eq rfl

end Keeps

theorem Reachable.get?_eq (h : s.Reachable s') : s.Keeps s' := by
  induction h with
  | refl => exact .of_bindings_eq rfl
  | tail _ hstep ih => exact ih.trans (.step hstep)

/-! ### No type contains itself -/

/-- The id of the type a name is bound to. -/
def idOf (s : Scope) (name : String) : Nat := ((s.get? name).map fun t => t.id.val).getD 0

theorem Sound.idOf_lt (h : s.Sound) {payload name : String} (hmentions : s.Mentions payload name) :
    s.idOf payload < s.idOf name := by
  obtain ⟨id, a, members, table, hname, m, hm, rfl⟩ := hmentions
  have hmem := List.mem_map_of_mem (f := fun m : Member => s.get? m.payload) hm
  rw [h.members hname] at hmem
  obtain ⟨t, ht, hpayload⟩ := List.mem_map.1 hmem
  have hlt := h.id_lt hname t ht
  rw [idOf, idOf, hname, ← hpayload]
  exact hlt

theorem Sound.wellFounded_mentions (h : s.Sound) : WellFounded s.Mentions :=
  Subrelation.wf h.idOf_lt (measure s.idOf).wf

/-! ### The life of a scope -/

/-- **What holds of a scope through its life.**  Whatever definitions, modules and ids it was used
for, and whether they were accepted or not:

* the builtin types keep their names, and no binding ever changes or disappears;
* a user type has an id that was drawn for it, is bound to the name of its own definition, and is
  known by its id;
* its members are what the payloads of its definition are bound to, one by one, with ids that are
  smaller than its own, and its table has the same types under their tags;
* going from a type to the payloads of its definition comes to an end, so no type contains
  itself. -/
theorem sound_of_reachable (h : builtin.Reachable s) :
    (s.get? "Int" = some .int ∧ s.get? "String" = some .string ∧
      ∀ s', s.Reachable s' → ∀ name, s.contains name = true → s'.get? name = s.get? name) ∧
    (∀ name id a members table, s.get? name = some (.user id a members table) →
      63 < id.val ∧ id.val ≤ s.lastId.val ∧ s.get? a.name = some (.user id a members table)) ∧
    (∀ name name' t t', s.get? name = some t → s.get? name' = some t' →
      (t.id = t'.id ↔ t = t')) ∧
    (∀ name id a members table, s.get? name = some (.user id a members table) →
      members.length = a.members.length ∧
      (∀ (i : Nat) (m : Member) (t : Ty), a.members[i]? = some m → members[i]? = some t →
        s.get? m.payload = some t ∧ t.id.val < id.val) ∧
      UserType.Resolved s ⟨id, a, members, table⟩) ∧
    WellFounded s.Mentions ∧ ∀ name, ¬ Relation.TransGen s.Mentions name name := by
  have hsound := Sound.builtin.of_reachable h
  refine ⟨⟨hsound.int, hsound.string, fun s' hreach => hreach.get?_eq⟩,
    fun name id a members table hget => ?_, fun name name' t t' hget hget' => ?_,
    fun name id a members table hget => ⟨?_, fun i m t hm ht => ⟨?_, ?_⟩,
      resolved_of_map (hsound.members hget) (hsound.table hget)⟩,
    hsound.wellFounded_mentions, fun name => ?_⟩
  · obtain ⟨hlt, hle⟩ := hsound.id_bounds hget
    exact ⟨hlt, hle, hsound.get?_name hget⟩
  · exact ⟨hsound.eq_of_id_eq hget hget', congrArg Ty.id⟩
  · simpa using (congrArg List.length (hsound.members hget)).symm
  · have hi := congrArg (·[i]?) (hsound.members hget)
    simpa [hm, ht] using hi
  · exact hsound.id_lt hget t (List.mem_of_getElem? ht)
  · exact hsound.wellFounded_mentions.transGen.irrefl.irrefl name

/-- A module that is refused for its second definition spends an id on it, an alias shares the type
of its target, and an id is drawn for nothing. -/
theorem sound_of_reachable_spent_ids :
    ∃ s, builtin.Reachable s ∧ s.lastId.val = 67 ∧ ∃ t t' : Ty, s.get? "C" = some t ∧
      s.get? "D" = some t' ∧ t.id.val = 64 ∧ t'.id.val = 67 ∧ (t.id = t'.id ↔ t = t') ∧
      s.get? "A" = some t ∧ WellFounded s.Mentions := by
  have refused := Step.checkModule (s := builtin) ⟨"f", [.type (.ofAlgebraic ⟨"A", [⟨"T", "Int"⟩]⟩),
    .type (.ofAlgebraic ⟨"B", [⟨"T", "A"⟩, ⟨"U", "B"⟩]⟩)], []⟩
  have drawn := (Relation.ReflTransGen.single refused).tail .drawId
  have aliased := drawn.tail (.define (.ofAlias ⟨"C", "A"⟩))
  have h := aliased.tail (.define (.ofAlgebraic ⟨"D", [⟨"X", "C"⟩, ⟨"Y", "String"⟩]⟩))
  obtain ⟨-, hname, hid, -, hwf, -⟩ := sound_of_reachable h
  exact ⟨_, h, rfl, _, _, rfl, rfl, rfl, rfl, hid "C" "D" _ _ rfl rfl,
    (hname "C" _ _ _ _ rfl).2.2, hwf⟩

end Scope

end DeclLang.Typing
