import Mathlib.Data.List.Basic
import Mathlib.Data.Nat.Find
import DeclLang.Check

/-!
# Names are defined before they are used

Checking the definitions of a module decides one question: whether each of them has a name of its
own and refers only to names bound before it.  `TypeEntries` picks the definitions out of the
declarations of a module.  `Known s ds i` are the names bound when the first `i` definitions of `ds`
have been checked in the scope `s`; `Admits` and `Refused` say of a single definition, against the
names known to it, that it is in order or what is wrong with it.

`Scope.checkModule_spec` puts these together for a whole module: when it is accepted, which error
it is refused for, and what the scope binds afterwards in either case (`Scope.Extends`).  The proof
is an induction over the definitions that carries the scope along; one step of it is
`Scope.define_of_admits` or `Scope.define_of_refused`.
-/

namespace DeclLang

/-- The definition draws an id. -/
def TypeDefinition.isAlgebraic : TypeDefinition → Bool
  | ofAlias _ => false
  | ofAlgebraic _ => true

/-! ### The definitions of a module -/

/-- The declarations are these type definitions, in this order, with any signatures before, between
and behind them. -/
inductive TypeEntries : List Declaration → List TypeDefinition → Prop
  | nil : TypeEntries [] []
  | type {es : List Declaration} {ds : List TypeDefinition} (d : TypeDefinition) :
      TypeEntries es ds → TypeEntries (.type d :: es) (d :: ds)
  | function {es : List Declaration} {ds : List TypeDefinition} (f : Signature) :
      TypeEntries es ds → TypeEntries (.function f :: es) ds

namespace TypeEntries

variable {es before after : List Declaration} {ds : List TypeDefinition}

theorem iff_eq_filterMap : TypeEntries es ds ↔ ds = es.filterMap Declaration.typeDefinition? := by
  constructor
  · intro h
    induction h with
    | nil => rfl
    | type d _ ih => exact congrArg (d :: ·) ih
    | function f _ ih => exact ih
  · rintro rfl
    induction es with
    | nil => exact .nil
    | cons e es ih =>
      cases e with
      | type d => exact .type d ih
      | function f => exact .function f ih

/-- The accessor returns the definitions that are there. -/
theorem typeDefinitions (m : Module) : TypeEntries m.declarations m.typeDefinitions :=
  iff_eq_filterMap.2 rfl

theorem eq_typeDefinitions {m : Module} (h : TypeEntries m.declarations ds) :
    ds = m.typeDefinitions := iff_eq_filterMap.1 h

/-- One signature more or less does not matter. -/
theorem insert_function (f : Signature) :
    TypeEntries (before ++ .function f :: after) ds ↔ TypeEntries (before ++ after) ds := by
  rw [iff_eq_filterMap, iff_eq_filterMap, List.filterMap_append, List.filterMap_append,
    List.filterMap_cons_none rfl]

end TypeEntries

namespace Typing

/-! ### What a definition may be -/

/-- The definition has a new name and refers to known names. -/
def Admits (known : String → Prop) (d : TypeDefinition) : Prop :=
  ¬ known d.name ∧ ∀ name ∈ d.references, known name

/-- The error a definition is refused for.  That its name is known comes before all else; of the
members, the first one with an unknown payload counts. -/
inductive Refused (known : String → Prop) : TypeDefinition → TypeError → Prop
  | duplicate {d : TypeDefinition} : known d.name → Refused known d (.duplicate d.name)
  | target {a : Alias} : ¬ known a.name → ¬ known a.target →
      Refused known (.ofAlias a) (.undefined a.target a.name none)
  | payload {a : Algebraic} {before after : List Member} {m : Member} : ¬ known a.name →
      a.members = before ++ m :: after → (∀ m' ∈ before, known m'.payload) → ¬ known m.payload →
      Refused known (.ofAlgebraic a) (.undefined m.payload a.name (some m.tag))

theorem Admits.not_refused {known : String → Prop} {d : TypeDefinition} {e : TypeError}
    (h : Admits known d) : ¬ Refused known d e := by
  rintro (hname | ⟨-, htarget⟩ | ⟨-, hmembers, -, hm⟩)
  · exact h.1 hname
  · exact htarget (h.2 _ (by simp [TypeDefinition.references]))
  · exact hm (h.2 _ (by simp [TypeDefinition.references, hmembers]))

/-- A definition is in order, or there is one error it is refused for. -/
theorem admits_or_refused (known : String → Prop) (d : TypeDefinition) :
    Admits known d ∨ ∃ e, Refused known d e := by
  by_cases hname : known d.name
  · exact .inr ⟨_, .duplicate hname⟩
  cases d with
  | ofAlias a =>
    by_cases htarget : known a.target
    · exact .inl ⟨hname, by simpa [TypeDefinition.references] using htarget⟩
    · exact .inr ⟨_, .target hname htarget⟩
  | ofAlgebraic a =>
    have split : ∀ ms : List Member, (∀ m ∈ ms, known m.payload) ∨
        ∃ before m after, ms = before ++ m :: after ∧ (∀ m' ∈ before, known m'.payload) ∧
          ¬ known m.payload := by
      intro ms
      induction ms with
      | nil => exact .inl (by simp)
      | cons m ms ih =>
        by_cases hm : known m.payload
        · rcases ih with hall | ⟨before, m', after, rfl, hbefore, hm'⟩
          · exact .inl (by simpa [hm] using hall)
          · exact .inr ⟨m :: before, m', after, rfl, by simpa [hm] using hbefore, hm'⟩
        · exact .inr ⟨[], m, ms, rfl, by simp, hm⟩
    rcases split a.members with hall | ⟨before, m, after, hmembers, hbefore, hm⟩
    · exact .inl ⟨hname, by simpa [TypeDefinition.references] using hall⟩
    · exact .inr ⟨_, .payload hname hmembers hbefore hm⟩

namespace Scope

/-- The names bound when the first definitions have been checked. -/
def Known (s : Scope) (ds : List TypeDefinition) (i : Nat) (name : String) : Prop :=
  s.contains name = true ∨ name ∈ (ds.take i).map TypeDefinition.name

/-- The first definitions are in order, each against the names known to it. -/
def InOrder (s : Scope) (ds : List TypeDefinition) (i : Nat) : Prop :=
  ∀ j < i, ∀ d, ds[j]? = some d → Admits (s.Known ds j) d

/-- What a scope binds when definitions have been checked and bound in it, in this order. -/
structure Extends (s : Scope) (ds : List TypeDefinition) (s' : Scope) : Prop where
  /-- One name is added for each definition. -/
  size : s'.size = s.size + ds.length
  /-- The names of the definitions are bound, and otherwise those that were. -/
  contains (name : String) :
    s'.contains name = true ↔ s.contains name = true ∨ name ∈ ds.map TypeDefinition.name
  /-- No binding changes. -/
  get?_of_contains {name : String} : s.contains name = true → s'.get? name = s.get? name
  /-- An alias has the type of its target. -/
  get?_alias {a : Alias} : .ofAlias a ∈ ds →
    s'.contains a.target = true ∧ s'.get? a.name = s'.get? a.target
  /-- The `k`-th algebraic type has the `k`-th id and the types of its payloads. -/
  get?_algebraic {i : Nat} {a : Algebraic} : ds[i]? = some (.ofAlgebraic a) →
    ∃ members, a.members.map (fun m => s'.get? m.payload) = members.map some ∧
      s'.get? a.name = some (.user
        ⟨s.lastId.val + (ds.take (i + 1)).countP TypeDefinition.isAlgebraic⟩ a members
        (TagTable.ofMembers a.members members))

variable {s s' : Scope}

/-! ### Bindings -/

theorem get?_insert (s : Scope) (name other : String) (type : Ty) (id : TypeId) :
    get? ⟨(name, type) :: s.bindings, id⟩ other
      = if other = name then some type else s.get? other := by
  simp only [get?, List.lookup_cons]
  by_cases h : other = name
  · simp [h]
  · simp [beq_false_of_ne h, h]

theorem contains_iff {name : String} : s.contains name = true ↔ ∃ type, s.get? name = some type :=
  Option.isSome_iff_exists

theorem get?_eq_none_iff {name : String} : s.get? name = none ↔ ¬ s.contains name = true := by
  simp [contains]

theorem insert_of_not_contains {name : String} (h : ¬ s.contains name = true) (type : Ty) :
    s.insert name type = .ok { s with bindings := (name, type) :: s.bindings } := by
  rw [insert, if_neg h]

/-! ### Members -/

theorem memberTypes_of_known (owner : String) {ms : List Member}
    (h : ∀ m ∈ ms, s.contains m.payload = true) :
    ∃ types, s.memberTypes owner ms = .ok types ∧
      ms.map (fun m => s.get? m.payload) = types.map some := by
  induction ms with
  | nil => exact ⟨[], rfl, rfl⟩
  | cons m ms ih =>
    obtain ⟨type, hm⟩ := contains_iff.1 (h m List.mem_cons_self)
    obtain ⟨types, hok, hmap⟩ := ih fun m' hm' => h m' (List.mem_cons_of_mem m hm')
    refine ⟨type :: types, ?_, ?_⟩
    · rw [memberTypes, hm]
      simp only [hok]; rfl
    · simp [hm, hmap]

theorem contains_of_map_get? {ms : List Member} {types : List Ty}
    (h : ms.map (fun m => s.get? m.payload) = types.map some) {m : Member} (hm : m ∈ ms) :
    s.contains m.payload = true := by
  have hmem : s.get? m.payload ∈ types.map some := h ▸ List.mem_map_of_mem hm
  obtain ⟨type, -, htype⟩ := List.mem_map.1 hmem
  exact contains_iff.2 ⟨type, htype.symm⟩

theorem memberTypes_of_unknown (owner : String) {before after : List Member} {m : Member}
    (hbefore : ∀ m' ∈ before, s.contains m'.payload = true)
    (hm : ¬ s.contains m.payload = true) :
    s.memberTypes owner (before ++ m :: after) =
      .error (.undefined m.payload owner (some m.tag)) := by
  induction before with
  | nil => rw [List.nil_append, memberTypes, get?_eq_none_iff.2 hm]
  | cons m' before ih =>
    obtain ⟨type, hm'⟩ := contains_iff.1 (hbefore m' List.mem_cons_self)
    rw [List.cons_append, memberTypes, hm']
    simp only [ih fun m'' h => hbefore m'' (List.mem_cons_of_mem m' h)]; rfl

/-! ### One definition -/

theorem typeOf_ofAlias (a : Alias) :
    s.typeOf (.ofAlias a) = match s.get? a.target with
      | none => (.error (.undefined a.target a.name none), s)
      | some type => (.ok type, s) := rfl

/-- The id is drawn before the members are looked up. -/
theorem typeOf_ofAlgebraic (a : Algebraic) :
    s.typeOf (.ofAlgebraic a) =
      ((s.drawId.2.memberTypes a.name a.members).map fun members =>
        .user s.lastId.next a members (TagTable.ofMembers a.members members), s.drawId.2) := by
  show (((s.drawId.2.memberTypes a.name a.members).map _).map UserType.toTy, s.drawId.2) = _
  cases s.drawId.2.memberTypes a.name a.members <;> rfl

theorem define_of_typeOf_error {d : TypeDefinition} {e : TypeError} {s' : Scope}
    (hname : ¬ s.contains d.name = true) (htype : s.typeOf d = (.error e, s')) :
    s.define d = (.error e, s') := by
  rw [define, if_neg hname, htype]

theorem define_of_typeOf_ok {d : TypeDefinition} {type : Ty} {s' : Scope}
    (hname : ¬ s.contains d.name = true) (htype : s.typeOf d = (.ok type, s'))
    (hname' : ¬ s'.contains d.name = true) :
    s.define d = (.ok type.id, { s' with bindings := (d.name, type) :: s'.bindings }) := by
  rw [define, if_neg hname, htype]
  simp only [insert_of_not_contains hname']

/-- A definition that is refused changes no binding. -/
theorem define_of_refused {d : TypeDefinition} {e : TypeError}
    (h : Refused (s.contains · = true) d e) :
    ∃ s', s.define d = (.error e, s') ∧ s'.bindings = s.bindings := by
  cases h with
  | duplicate hname => exact ⟨s, by rw [define, if_pos hname], rfl⟩
  | @target a hname htarget =>
    refine ⟨s, define_of_typeOf_error hname ?_, rfl⟩
    rw [typeOf_ofAlias, get?_eq_none_iff.2 htarget]
  | @payload a before after m hname hmembers hbefore hm =>
    have hunknown : s.drawId.2.memberTypes a.name a.members
        = .error (.undefined m.payload a.name (some m.tag)) := by
      rw [hmembers]
      exact memberTypes_of_unknown a.name hbefore hm
    refine ⟨s.drawId.2, define_of_typeOf_error hname ?_, rfl⟩
    rw [typeOf_ofAlgebraic, hunknown]; rfl

theorem extends_bind {d : TypeDefinition} {type : Ty} {id : TypeId}
    (hname : ¬ s.contains d.name = true)
    (halias : ∀ a, d = .ofAlias a → s.get? a.target = some type)
    (halgebraic : ∀ a, d = .ofAlgebraic a → ∃ members,
      a.members.map (fun m => s.get? m.payload) = members.map some ∧
        type = .user ⟨s.lastId.val + 1⟩ a members (TagTable.ofMembers a.members members)) :
    s.Extends [d] ⟨(d.name, type) :: s.bindings, id⟩ := by
  have hbound {name : String} (h : s.contains name = true) : name ≠ d.name := by
    rintro rfl; exact hname h
  have hget {name : String} (h : s.contains name = true) :
      get? ⟨(d.name, type) :: s.bindings, id⟩ name = s.get? name := by
    rw [get?_insert, if_neg (hbound h)]
  have hnew : get? ⟨(d.name, type) :: s.bindings, id⟩ d.name = some type := by
    rw [get?_insert, if_pos rfl]
  refine ⟨rfl, fun name => ?_, hget, fun {a} ha => ?_, fun {i a} ha => ?_⟩
  · simp only [contains, get?_insert, List.map_cons, List.map_nil, List.mem_singleton]
    by_cases h : name = d.name <;> simp [h]
  · obtain rfl : .ofAlias a = d := by simpa using ha
    have htarget := halias a rfl
    have hcontains : s.contains a.target = true := contains_iff.2 ⟨type, htarget⟩
    rw [contains_iff, hget hcontains]
    exact ⟨⟨type, htarget⟩, hnew.trans htarget.symm⟩
  · obtain ⟨rfl, rfl⟩ : i = 0 ∧ d = .ofAlgebraic a := by
      cases i <;> simp_all
    obtain ⟨members, hmap, rfl⟩ := halgebraic a rfl
    refine ⟨members, ?_, hnew⟩
    rw [← hmap]
    exact List.map_congr_left fun m hm => hget (contains_of_map_get? hmap hm)

/-- A definition that is in order binds its name to a type. -/
theorem define_of_admits {d : TypeDefinition} (h : Admits (s.contains · = true) d) :
    ∃ id s', s.define d = (.ok id, s') ∧ s.Extends [d] s' ∧
      s'.lastId.val = s.lastId.val + [d].countP TypeDefinition.isAlgebraic := by
  obtain ⟨hname, hrefs⟩ := h
  cases d with
  | ofAlias a =>
    have hnew : ¬ s.contains a.name = true := hname
    have htarget : s.contains a.target = true := hrefs _ (by simp [TypeDefinition.references])
    obtain ⟨type, htype⟩ := contains_iff.1 htarget
    have hdefine := define_of_typeOf_ok hnew (by rw [typeOf_ofAlias, htype]) hnew
    refine ⟨type.id, _, hdefine, extends_bind hname (fun b hb => ?_) nofun, rfl⟩
    cases hb
    exact htype
  | ofAlgebraic a =>
    have hnew : ¬ s.contains a.name = true := hname
    -- The members are looked up after the id is drawn, which changes no binding.
    have hmembers : ∀ m ∈ a.members, s.drawId.2.contains m.payload = true := fun m hm =>
      hrefs _ (by simpa [TypeDefinition.references] using ⟨m, hm, rfl⟩)
    obtain ⟨types, htypes, hmap⟩ := memberTypes_of_known a.name hmembers
    have htype : s.typeOf (.ofAlgebraic a) =
        (.ok (.user s.lastId.next a types (TagTable.ofMembers a.members types)), s.drawId.2) := by
      rw [typeOf_ofAlgebraic, htypes]; rfl
    have hdefine := define_of_typeOf_ok hnew htype hname
    refine ⟨s.lastId.next, _, hdefine, extends_bind hname nofun fun b hb => ?_, rfl⟩
    cases hb
    exact ⟨types, hmap, rfl⟩

/-! ### All definitions of a module -/

namespace Extends

theorem nil (s : Scope) : s.Extends [] s :=
  ⟨rfl, by simp, fun _ => rfl, nofun, nofun⟩

/-- Only the bindings matter. -/
theorem congr {s'' : Scope} {ds : List TypeDefinition} (h : s.Extends ds s')
    (hbindings : s''.bindings = s'.bindings) : s.Extends ds s'' := by
  obtain ⟨bindings, id⟩ := s'
  obtain ⟨bindings, id'⟩ := s''
  cases hbindings
  exact ⟨h.size, h.contains, h.get?_of_contains, h.get?_alias, h.get?_algebraic⟩

theorem cons {s'' : Scope} {d : TypeDefinition} {ds : List TypeDefinition}
    (h : s.Extends [d] s')
    (hid : s'.lastId.val = s.lastId.val + [d].countP TypeDefinition.isAlgebraic)
    (h' : s'.Extends ds s'') : s.Extends (d :: ds) s'' := by
  have hmono {name : String} (hname : s.contains name = true) : s'.contains name = true :=
    (h.contains name).2 (.inl hname)
  refine ⟨?_, fun name => ?_, fun hname => ?_, fun {a} ha => ?_, fun {i a} ha => ?_⟩
  · rw [h'.size, h.size]; simp only [List.length_cons, List.length_nil]; omega
  · rw [h'.contains, h.contains]; simp [or_assoc]
  · rw [h'.get?_of_contains (hmono hname), h.get?_of_contains hname]
  · rcases List.mem_cons.1 ha with rfl | ha
    · obtain ⟨htarget, hget⟩ := h.get?_alias List.mem_cons_self
      have hname : s'.contains a.name = true :=
        (h.contains _).2 (.inr (by simp [TypeDefinition.name]))
      refine ⟨(h'.contains _).2 (.inl htarget), ?_⟩
      rw [h'.get?_of_contains htarget, h'.get?_of_contains hname, hget]
    · exact h'.get?_alias ha
  · cases i with
    | zero =>
      obtain rfl : d = .ofAlgebraic a := by simpa using ha
      obtain ⟨members, hmap, hget⟩ := h.get?_algebraic (i := 0) rfl
      have hname : s'.contains a.name = true := contains_iff.2 ⟨_, hget⟩
      refine ⟨members, ?_, ?_⟩
      · rw [← hmap]
        exact List.map_congr_left fun m hm =>
          h'.get?_of_contains (contains_of_map_get? hmap hm)
      · rw [h'.get?_of_contains hname, hget]
        simp
    | succ i =>
      obtain ⟨members, hmap, hget⟩ := h'.get?_algebraic (i := i) (by simpa using ha)
      refine ⟨members, hmap, hget.trans ?_⟩
      rw [hid, List.take_succ_cons, List.countP_cons, List.countP_cons, List.countP_nil]
      congr 3
      omega

end Extends

theorem known_zero {ds : List TypeDefinition} : s.Known ds 0 = (s.contains · = true) := by
  funext name; simp [Known]

theorem known_succ {d : TypeDefinition} {ds : List TypeDefinition} (h : s.Extends [d] s')
    (i : Nat) : s.Known (d :: ds) (i + 1) = s'.Known ds i := by
  funext name
  simp [Known, h.contains, or_assoc]

theorem inOrder_cons {d : TypeDefinition} {ds : List TypeDefinition} {i : Nat}
    (h : s.InOrder (d :: ds) (i + 1)) (hext : s.Extends [d] s') : s'.InOrder ds i := by
  intro j hj d' hd'
  rw [← known_succ hext]
  exact h (j + 1) (by omega) d' hd'

theorem admits_of_inOrder {d : TypeDefinition} {ds : List TypeDefinition} {i : Nat}
    (h : s.InOrder (d :: ds) (i + 1)) : Admits (s.contains · = true) d := by
  rw [← known_zero]
  exact h 0 (by omega) d rfl

theorem defineAll_of_inOrder {ds : List TypeDefinition} (h : s.InOrder ds ds.length) :
    ∃ s', s.defineAll ds = (.ok (), s') ∧ s.Extends ds s' ∧
      s'.lastId.val = s.lastId.val + ds.countP TypeDefinition.isAlgebraic := by
  induction ds generalizing s with
  | nil => exact ⟨s, rfl, .nil s, rfl⟩
  | cons d ds ih =>
    obtain ⟨id, s₁, hdefine, hext, hid⟩ := define_of_admits (admits_of_inOrder h)
    obtain ⟨s₂, hall, hext', hid'⟩ := ih (inOrder_cons h hext)
    refine ⟨s₂, ?_, hext.cons hid hext', ?_⟩
    · rw [defineAll, hdefine]
      exact hall
    · rw [hid', hid, List.countP_cons, List.countP_cons, List.countP_nil]
      omega

theorem defineAll_of_refused {ds : List TypeDefinition} {i : Nat} {d : TypeDefinition}
    {e : TypeError} (hd : ds[i]? = some d) (hbefore : s.InOrder ds i)
    (he : Refused (s.Known ds i) d e) :
    ∃ s', s.defineAll ds = (.error e, s') ∧ s.Extends (ds.take i) s' := by
  -- The scope changes from one definition to the next, and the names known in it do not.
  induction ds generalizing s i with
  | nil => cases hd
  | cons d₀ ds ih =>
    cases i with
    | zero =>
      obtain rfl : d₀ = d := by simpa using hd
      rw [known_zero] at he
      obtain ⟨s', hdefine, hbindings⟩ := define_of_refused he
      refine ⟨s', ?_, (Extends.nil s).congr hbindings⟩
      rw [defineAll, hdefine]
    | succ i =>
      obtain ⟨id, s₁, hdefine, hext, hid⟩ := define_of_admits (admits_of_inOrder hbefore)
      rw [known_succ hext] at he
      obtain ⟨s₂, hall, hext'⟩ := ih hd (inOrder_cons hbefore hext) he
      refine ⟨s₂, ?_, hext.cons hid hext'⟩
      rw [defineAll, hdefine]
      exact hall

/-- All definitions are in order, or there is a first one that is not. -/
theorem inOrder_or_refused (s : Scope) (ds : List TypeDefinition) :
    s.InOrder ds ds.length ∨
      ∃ i d e, ds[i]? = some d ∧ s.InOrder ds i ∧ Refused (s.Known ds i) d e := by
  classical
  by_cases h : ∃ i d, ds[i]? = some d ∧ ¬ Admits (s.Known ds i) d
  · right
    -- the least definition that is not in order
    obtain ⟨d, hd, hnot⟩ := Nat.find_spec h
    obtain ⟨e, he⟩ := (admits_or_refused (s.Known ds (Nat.find h)) d).resolve_left hnot
    refine ⟨Nat.find h, d, e, hd, fun j hj d' hd' => ?_, he⟩
    by_contra hj'
    exact Nat.find_min h hj ⟨d', hd', hj'⟩
  · left
    intro i _ d hd
    by_contra hnot
    exact h ⟨i, d, hd, hnot⟩

theorem defineAll_eq_ok_iff {ds : List TypeDefinition} :
    (s.defineAll ds).1 = .ok () ↔ s.InOrder ds ds.length := by
  refine ⟨fun hok => ?_, fun h => ?_⟩
  · refine (inOrder_or_refused s ds).resolve_right ?_
    rintro ⟨i, d, e, hd, hbefore, he⟩
    obtain ⟨s', hall, -⟩ := defineAll_of_refused hd hbefore he
    rw [hall] at hok
    cases hok
  · obtain ⟨s', hall, -⟩ := defineAll_of_inOrder h
    rw [hall]

theorem defineAll_eq_error_iff {ds : List TypeDefinition} {e : TypeError} :
    (s.defineAll ds).1 = .error e ↔
      ∃ i d, ds[i]? = some d ∧ s.InOrder ds i ∧ Refused (s.Known ds i) d e := by
  constructor
  · intro herror
    rcases inOrder_or_refused s ds with h | ⟨i, d, e', hd, hbefore, he⟩
    · rw [defineAll_eq_ok_iff.2 h] at herror
      cases herror
    · obtain ⟨s', hall, -⟩ := defineAll_of_refused hd hbefore he
      rw [hall] at herror
      cases herror
      exact ⟨i, d, hd, hbefore, he⟩
  · rintro ⟨i, d, hd, hbefore, he⟩
    obtain ⟨s', hall, -⟩ := defineAll_of_refused hd hbefore he
    rw [hall]

/-- A text is accepted in the scope of the builtin types. -/
theorem checkModule_of_checkSource {text filename : String} {scope : Scope}
    (h : checkSource text filename = .ok scope) :
    ∃ m, Module.parse text filename = .ok m ∧ builtin.checkModule m = (.ok (), scope) := by
  unfold checkSource at h
  split at h
  case h_1 => cases h
  case h_2 m hparse =>
    split at h
    case h_1 => cases h
    case h_2 s' hcheck =>
      cases h
      exact ⟨m, hparse, hcheck⟩

/-- **Checking a module decides whether names are unique and defined before they are used.**  Let
`ds` be the type definitions among the declarations of the module.

* The module is accepted if and only if each definition has a name that is not known yet and
  refers to known names alone.  Its definitions are then bound in their order, and nothing else.
* Otherwise it is refused for the first definition that is not in order, and the definitions
  before that one are bound.
* Signatures have no part in it: a module with the same definitions is checked with the same
  result, and so is this one with one signature more, wherever it stands.
* A text is checked in the scope of the builtin types, where the ids begin behind 63. -/
theorem checkModule_spec (s : Scope) (m : Module) : ∃ ds, TypeEntries m.declarations ds ∧
    ((s.checkModule m).1 = .ok () ↔ s.InOrder ds ds.length) ∧
    ((s.checkModule m).1 = .ok () →
      s.Extends ds (s.checkModule m).2 ∧ (s.checkModule m).2.lastId.val =
        s.lastId.val + ds.countP TypeDefinition.isAlgebraic) ∧
    (∀ e, (s.checkModule m).1 = .error e ↔ ∃ i d, ds[i]? = some d ∧ s.InOrder ds i ∧
      ¬ Admits (s.Known ds i) d ∧ Refused (s.Known ds i) d e) ∧
    (∀ i d, ds[i]? = some d → s.InOrder ds i → ¬ Admits (s.Known ds i) d →
      s.Extends (ds.take i) (s.checkModule m).2) ∧
    (∀ m' : Module, TypeEntries m'.declarations ds → s.checkModule m' = s.checkModule m) ∧
    (∀ before after f, m.declarations = before ++ after →
      s.checkModule { m with declarations := before ++ .function f :: after } =
        s.checkModule m) ∧
    (∀ text filename scope, checkSource text filename = .ok scope → builtin.lastId.val = 63 ∧
      ∃ m ds, Module.parse text filename = .ok m ∧ TypeEntries m.declarations ds ∧
        builtin.Extends ds scope) := by
  have same {m' : Module} (h : TypeEntries m'.declarations m.typeDefinitions) :
      s.checkModule m' = s.checkModule m := by
    rw [checkModule, checkModule, ← h.eq_typeDefinitions]
  refine ⟨m.typeDefinitions, .typeDefinitions m, defineAll_eq_ok_iff, fun hok => ?_, fun e => ?_,
    fun i d hd hbefore hnot => ?_, fun m' => same, fun before after f hm => same ?_,
    fun text filename scope h => ⟨rfl, ?_⟩⟩
  · obtain ⟨s', hall, hspec⟩ := defineAll_of_inOrder (defineAll_eq_ok_iff.1 hok)
    rwa [checkModule, hall]
  · rw [checkModule, defineAll_eq_error_iff]
    exact exists₂_congr fun i d => and_congr_right fun _ => and_congr_right fun _ =>
      ⟨fun he => ⟨fun hadmits => hadmits.not_refused he, he⟩, And.right⟩
  · obtain ⟨e, he⟩ := (admits_or_refused _ d).resolve_left hnot
    obtain ⟨s', hall, hext⟩ := defineAll_of_refused hd hbefore he
    rwa [checkModule, hall]
  · rw [TypeEntries.insert_function, ← hm]
    exact .typeDefinitions m
  · obtain ⟨m', hparse, hcheck⟩ := checkModule_of_checkSource h
    have hok : (builtin.defineAll m'.typeDefinitions).1 = .ok () := congrArg Prod.fst hcheck
    obtain ⟨s', hall, hext, -⟩ := defineAll_of_inOrder (defineAll_eq_ok_iff.1 hok)
    rw [checkModule, hall] at hcheck
    cases hcheck
    exact ⟨m', _, hparse, .typeDefinitions m', hext⟩

end Scope

end Typing

end DeclLang
