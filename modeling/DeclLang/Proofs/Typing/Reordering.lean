import Mathlib.Data.List.Forall2
import Mathlib.Data.Set.Function
import DeclLang.Proofs.Typing.Lifetime

/-!
# The order of definitions

Definitions may be given in any order in which each name is defined before it is used.  Another such
order numbers the types differently, and so the types that are captured in other types differ as
well, at any depth; `Ty.Corresponds f` says that this is all, the map `f` being the one between the
ids.

Two orders of the same definitions bind the same names to corresponding types
(`Scope.corresponds_of_perm`).  The proof goes along one of the two orders: what a definition refers
to is known before it, so the types it refers to correspond already, whatever place the definition
has in the other order.  The map is a bijection because a type is known by its id on both sides
(`Scope.bijOn_of_corresponds`).
-/

namespace DeclLang.Typing

/-! ### Types that differ in their ids -/

/-- The types are the same up to their ids: the same builtin type, or user types of the same
definition whose members correspond, in their order and under their tags. -/
inductive Ty.Corresponds (f : TypeId → TypeId) : Ty → Ty → Prop
  | int : Corresponds f .int .int
  | string : Corresponds f .string .string
  | user {id : TypeId} {a : Algebraic} {members members' : List Ty} {table table' : TagTable} :
      List.Forall₂ (Corresponds f) members members' →
      (∀ tag, Option.Rel (Corresponds f) (table.lookup tag) (table'.lookup tag)) →
      Corresponds f (.user id a members table) (.user (f id) a members' table')

/-- Under a tag there is what stands in the place of its member. -/
theorem TagTable.rel_ofMembers {R : Ty → Ty → Prop} {types types' : List Ty}
    (h : List.Forall₂ R types types') (members : List Member) (tag : String) :
    Option.Rel R ((ofMembers members types).lookup tag)
      ((ofMembers members types').lookup tag) := by
  -- Both tables are filled in the same order, so they correspond all along.
  have hfold {table table' : TagTable}
      (htable : ∀ tag, Option.Rel R (table.lookup tag) (table'.lookup tag)) :
      Option.Rel R
        (((members.zip types).foldl (fun table e => table.insert e.1.tag e.2) table).lookup tag)
        (((members.zip types').foldl (fun table e => table.insert e.1.tag e.2) table').lookup
          tag) := by
    induction h generalizing members table table' with
    | nil => simpa using htable tag
    | @cons t t' ts ts' ht _ ih =>
      cases members with
      | nil => exact htable tag
      | cons m members =>
        refine ih members fun other => ?_
        rw [lookup_insert, lookup_insert]
        split_ifs
        · exact .some ht
        · exact htable other
  exact hfold fun _ => .none

namespace Scope

/-- The ids of the user types that are bound. -/
def userIds (s : Scope) : Set TypeId :=
  {id | ∃ name a members table, s.get? name = some (.user id a members table)}

variable {s s' : Scope} {ds ds' : List TypeDefinition} {f : TypeId → TypeId}

/-- An id is taken to the id that the other scope has for the name of the definition. -/
theorem exists_counterpart (h : s.Sound) (s' : Scope) :
    ∃ f : TypeId → TypeId, ∀ id (a : Algebraic) members table t',
      s.get? a.name = some (.user id a members table) → s'.get? a.name = some t' →
        f id = t'.id := by
  have hid (id : TypeId) : ∃ id', ∀ (a : Algebraic) members table t',
      s.get? a.name = some (.user id a members table) → s'.get? a.name = some t' →
        id' = t'.id := by
    by_cases hbound : ∃ (a : Algebraic) (members : _) (table : _) (t' : Ty),
        s.get? a.name = some (.user id a members table) ∧ s'.get? a.name = some t'
    · obtain ⟨a, members, table, t', ht, ht'⟩ := hbound
      refine ⟨t'.id, fun b members' table' t'' hb hb' => ?_⟩
      -- There is one definition for an id.
      cases h.eq_of_id_eq ht hb rfl
      rw [Option.some.inj (ht'.symm.trans hb')]
    · exact ⟨id, fun a members table t' ht ht' => absurd ⟨a, members, table, t', ht, ht'⟩ hbound⟩
  choose f hf using hid
  exact ⟨f, hf⟩

/-- Where all names are bound to corresponding types, the ids of the one scope are as many as those
of the other. -/
theorem bijOn_of_corresponds (h : s.Sound) (h' : s'.Sound)
    (hrel : ∀ name, Option.Rel (Ty.Corresponds f) (s.get? name) (s'.get? name)) :
    Set.BijOn f s.userIds s'.userIds := by
  have hright {name : String} {id : TypeId} {a : Algebraic} {members : List Ty} {table : TagTable}
      (ht : s.get? name = some (.user id a members table)) :
      ∃ members' table', s'.get? name = some (.user (f id) a members' table') := by
    have hname := hrel name
    rw [ht] at hname
    generalize s'.get? name = found at hname
    obtain ⟨⟨⟩⟩ := hname
    exact ⟨_, _, rfl⟩
  have hleft {name : String} {id : TypeId} {a : Algebraic} {members : List Ty} {table : TagTable}
      (ht : s'.get? name = some (.user id a members table)) :
      ∃ id₀ members₀ table₀, s.get? name = some (.user id₀ a members₀ table₀) ∧ f id₀ = id := by
    have hname := hrel name
    rw [ht] at hname
    generalize s.get? name = found at hname
    obtain ⟨⟨⟩⟩ := hname
    exact ⟨_, _, _, rfl, rfl⟩
  refine ⟨?_, ?_, ?_⟩
  · rintro id ⟨name, a, members, table, ht⟩
    obtain ⟨members', table', ht'⟩ := hright ht
    exact ⟨name, a, members', table', ht'⟩
  · rintro id ⟨name, a, members, table, ht⟩ id₂ ⟨name₂, a₂, members₂, table₂, ht₂⟩ heq
    obtain ⟨members', table', ht'⟩ := hright (h.get?_name ht)
    obtain ⟨members₂', table₂', ht₂'⟩ := hright (h.get?_name ht₂)
    -- Equal ids have one definition, and its name is bound to one type.
    obtain ⟨-, rfl, -⟩ := Ty.user.inj (h'.eq_of_id_eq ht' ht₂' heq)
    exact (Ty.user.inj (Option.some.inj ((h.get?_name ht).symm.trans (h.get?_name ht₂)))).1
  · rintro id ⟨name, a, members, table, ht⟩
    obtain ⟨id₀, members₀, table₀, ht₀, rfl⟩ := hleft ht
    exact ⟨id₀, ⟨name, a, members₀, table₀, ht₀⟩, rfl⟩

/-! ### Two orders of the same definitions -/

theorem known_length (hext : s.Extends ds s') {name : String} :
    s.Known ds ds.length name ↔ s'.contains name = true := by
  rw [Known, List.take_length, hext.contains]

theorem known_take_succ {i : Nat} {d : TypeDefinition} (hd : ds[i]? = some d) {name : String} :
    s.Known ds (i + 1) name ↔ s.Known ds i name ∨ name = d.name := by
  rw [Known, Known, List.take_add_one, hd]
  simp [or_assoc]

theorem get?_builtin_of_contains {name : String} (h : builtin.contains name = true) :
    builtin.get? name = some .int ∨ builtin.get? name = some .string := by
  by_cases hint : name = "Int"
  · exact .inl (hint ▸ rfl)
  by_cases hstring : name = "String"
  · exact .inr (hstring ▸ rfl)
  · simp [contains, get?, builtin, List.lookup_cons, beq_false_of_ne hint,
      beq_false_of_ne hstring] at h

/-- What is bound to the names of a definition corresponds, if what they refer to does. -/
theorem corresponds_name (hext : builtin.Extends ds s) (hext' : builtin.Extends ds' s')
    (hf : ∀ id (a : Algebraic) members table t',
      s.get? a.name = some (.user id a members table) → s'.get? a.name = some t' → f id = t'.id)
    {d : TypeDefinition} (hd : d ∈ ds) (hd' : d ∈ ds')
    (hrefs : ∀ name ∈ d.references, Option.Rel (Ty.Corresponds f) (s.get? name) (s'.get? name)) :
    Option.Rel (Ty.Corresponds f) (s.get? d.name) (s'.get? d.name) := by
  cases d with
  | ofAlias a =>
    have htarget := (hext.get?_alias hd).2
    have htarget' := (hext'.get?_alias hd').2
    show Option.Rel (Ty.Corresponds f) (s.get? a.name) (s'.get? a.name)
    rw [htarget, htarget']
    exact hrefs _ (by simp [TypeDefinition.references])
  | ofAlgebraic a =>
    obtain ⟨i, hi⟩ := List.mem_iff_getElem?.1 hd
    obtain ⟨j, hj⟩ := List.mem_iff_getElem?.1 hd'
    obtain ⟨members, hmap, hget⟩ := hext.get?_algebraic hi
    obtain ⟨members', hmap', hget'⟩ := hext'.get?_algebraic hj
    have hmembers : List.Forall₂ (Ty.Corresponds f) members members' := by
      have hpayloads : List.Forall₂ (Option.Rel (Ty.Corresponds f))
          (members.map some) (members'.map some) := by
        rw [← hmap, ← hmap', List.forall₂_map_left_iff, List.forall₂_map_right_iff,
          List.forall₂_same]
        exact fun m hm => hrefs _ (by simpa [TypeDefinition.references] using ⟨m, hm, rfl⟩)
      simpa using hpayloads
    show Option.Rel (Ty.Corresponds f) (s.get? a.name) (s'.get? a.name)
    have hid := hf _ _ _ _ _ hget hget'
    rw [hget, hget']
    simp only [Ty.id] at hid
    rw [← hid]
    exact .some (.user hmembers (TagTable.rel_ofMembers hmembers a.members))

/-- **Names are bound to corresponding types in both orders.** -/
theorem corresponds_of_perm (hperm : ds.Perm ds') (hin : builtin.InOrder ds ds.length)
    (hext : builtin.Extends ds s) (hext' : builtin.Extends ds' s')
    (hf : ∀ id (a : Algebraic) members table t',
      s.get? a.name = some (.user id a members table) → s'.get? a.name = some t' → f id = t'.id)
    (name : String) : Option.Rel (Ty.Corresponds f) (s.get? name) (s'.get? name) := by
  -- Along the first order; the second one does not have to agree with it on what comes before.
  have hknown (i : Nat) (hi : i ≤ ds.length) : ∀ name, builtin.Known ds i name →
      Option.Rel (Ty.Corresponds f) (s.get? name) (s'.get? name) := by
    induction i with
    | zero =>
      intro name hname
      rw [known_zero] at hname
      rw [hext.get?_of_contains hname, hext'.get?_of_contains hname]
      rcases get?_builtin_of_contains hname with hint | hstring
      · rw [hint]
        exact .some .int
      · rw [hstring]
        exact .some .string
    | succ i ih =>
      have hd : ds[i]? = some ds[i] := List.getElem?_eq_getElem hi
      intro name hname
      rcases (known_take_succ hd).1 hname with hname | rfl
      · exact ih (by omega) name hname
      · have hmem : ds[i] ∈ ds := List.getElem_mem hi
        refine corresponds_name hext hext' hf hmem (hperm.mem_iff.1 hmem) fun name href => ?_
        exact ih (by omega) name ((hin i hi _ hd).2 name href)
  by_cases hname : s.contains name = true
  · exact hknown ds.length le_rfl name ((known_length hext).2 hname)
  · have hname' : ¬ s'.contains name = true := by
      rwa [hext'.contains, ← (hperm.map TypeDefinition.name).mem_iff, ← hext.contains]
    rw [get?_eq_none_iff.2 hname, get?_eq_none_iff.2 hname']
    exact .none

/-- **The order of definitions does not matter.**  If two modules have the same type definitions,
in different orders, and both are accepted in the scope of the builtin types, then the same names
are bound afterwards, and there is a bijection between the ids of the user types under which each
name has corresponding types. -/
theorem checkModule_perm {m m' : Module} {s s' : Scope}
    (hperm : m.typeDefinitions.Perm m'.typeDefinitions)
    (h : builtin.checkModule m = (.ok (), s)) (h' : builtin.checkModule m' = (.ok (), s')) :
    (∀ name, s.contains name = s'.contains name) ∧
      ∃ f : TypeId → TypeId, Set.BijOn f s.userIds s'.userIds ∧
        ∀ name, Option.Rel (Ty.Corresponds f) (s.get? name) (s'.get? name) := by
  have accepted {m : Module} {s : Scope} (h : builtin.checkModule m = (.ok (), s)) :
      builtin.InOrder m.typeDefinitions m.typeDefinitions.length ∧
        builtin.Extends m.typeDefinitions s ∧ s.Sound := by
    have hin := defineAll_eq_ok_iff.1 (congrArg Prod.fst h)
    obtain ⟨s₁, hall, hext, -⟩ := defineAll_of_inOrder hin
    obtain rfl : s₁ = s := congrArg Prod.snd (hall.symm.trans h)
    have hsound := Sound.builtin.step (.checkModule m)
    rw [h] at hsound
    exact ⟨hin, hext, hsound⟩
  obtain ⟨hin, hext, hsound⟩ := accepted h
  obtain ⟨-, hext', hsound'⟩ := accepted h'
  obtain ⟨f, hf⟩ := exists_counterpart hsound s'
  have hrel := corresponds_of_perm hperm hin hext hext' hf
  refine ⟨fun name => ?_, f, bijOn_of_corresponds hsound hsound' hrel, hrel⟩
  rw [Bool.eq_iff_iff, hext.contains, hext'.contains,
    (hperm.map TypeDefinition.name).mem_iff]

/-- Two types change places.  An alias of the first one and a type that has members of both come
behind, one of them twice under one tag. -/
theorem checkModule_perm_two_orders :
    let a : Declaration := .type (.ofAlgebraic ⟨"A", [⟨"T", "Int"⟩]⟩)
    let b : Declaration := .type (.ofAlgebraic ⟨"B", [⟨"T", "String"⟩]⟩)
    let c : Declaration := .type (.ofAlias ⟨"C", "A"⟩)
    let d : Declaration := .type (.ofAlgebraic ⟨"D", [⟨"U", "C"⟩, ⟨"V", "A"⟩, ⟨"U", "B"⟩]⟩)
    let m : Module := ⟨"f", [a, b, c, d], []⟩
    let m' : Module := ⟨"f", [b, a, c, .function ⟨"f", none, none⟩, d], []⟩
    ∃ s s', builtin.checkModule m = (.ok (), s) ∧ builtin.checkModule m' = (.ok (), s') ∧
      (s.get? "C").map Ty.id = some ⟨64⟩ ∧ (s'.get? "C").map Ty.id = some ⟨65⟩ ∧
      (∀ name, s.contains name = s'.contains name) ∧
      ∃ f : TypeId → TypeId, Set.BijOn f s.userIds s'.userIds ∧
        ∀ name, Option.Rel (Ty.Corresponds f) (s.get? name) (s'.get? name) := by
  intro a b c d m m'
  have hperm : m.typeDefinitions.Perm m'.typeDefinitions := .swap _ _ _
  exact ⟨_, _, rfl, rfl, rfl, rfl, checkModule_perm hperm rfl rfl⟩

end Scope

end DeclLang.Typing
