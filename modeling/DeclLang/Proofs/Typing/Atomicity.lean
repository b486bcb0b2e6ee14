import DeclLang.Proofs.Typing.MemberResolution

/-!
# A definition is atomic

A definition either binds one name or changes no binding.  It can be refused in two places, with an
id drawn between them: before that for a name that is bound or an alias whose target is not, and
behind it for a member whose payload is not bound.  So an algebraic type that is refused for a
member has spent an id, but nothing else.

`Scope.Outcome` lists what can come of a definition, with all that has changed, and
`Scope.outcome_define` says that the list is complete.  The name that is bound at the end has been
found to be free at the beginning, and looking up the types of a definition binds nothing
(`Scope.bindings_typeOf`), so the last step does not fail.  `Scope.define_atomic` puts this
together.  Nothing is assumed about the scope: its names may be bound to any types, with any ids.
-/

namespace DeclLang.Typing.Scope

variable {s s' : Scope} {d : TypeDefinition}

/-! ### Binding a name -/

/-- The scope with one more name. -/
def bind (s : Scope) (name : String) (type : Ty) : Scope :=
  { s with bindings := (name, type) :: s.bindings }

@[simp] theorem lastId_bind (s : Scope) (name : String) (type : Ty) :
    (s.bind name type).lastId = s.lastId := rfl

@[simp] theorem size_bind (s : Scope) (name : String) (type : Ty) :
    (s.bind name type).size = s.size + 1 := rfl

@[simp] theorem get?_bind_self (s : Scope) (name : String) (type : Ty) :
    (s.bind name type).get? name = some type := by
  rw [bind, get?_insert, if_pos rfl]

theorem get?_bind_of_ne {name other : String} (h : other ≠ name) (s : Scope) (type : Ty) :
    (s.bind name type).get? other = s.get? other := by
  rw [bind, get?_insert, if_neg h]

/-! ### Spending an id -/

@[simp] theorem get?_drawId (s : Scope) (name : String) : s.drawId.2.get? name = s.get? name := rfl

@[simp] theorem size_drawId (s : Scope) : s.drawId.2.size = s.size := rfl

@[simp] theorem lastId_drawId (s : Scope) : s.drawId.2.lastId = s.lastId.next := rfl

/-- The type of a definition is found without binding a name. -/
theorem bindings_typeOf (s : Scope) (d : TypeDefinition) :
    (s.typeOf d).2.bindings = s.bindings := by
  cases d with
  | ofAlias a =>
    rw [typeOf_ofAlias]
    cases s.get? a.target <;> rfl
  | ofAlgebraic a =>
    rw [typeOf_ofAlgebraic]
    rfl

/-! ### What comes of a definition -/

/-- What can come of a definition: its result, and the scope behind it. -/
inductive Outcome (s : Scope) : TypeDefinition → Except TypeError TypeId → Scope → Prop
  /-- The name is bound. -/
  | duplicate {d : TypeDefinition} : s.contains d.name = true →
      Outcome s d (.error (.duplicate d.name)) s
  /-- The target of an alias is not bound. -/
  | target {a : Alias} : ¬ s.contains a.name = true → s.get? a.target = none →
      Outcome s (.ofAlias a) (.error (.undefined a.target a.name none)) s
  /-- The payload of a member is not bound, which is found out when an id has been drawn. -/
  | payload {a : Algebraic} {before after : List Member} {m : Member} :
      ¬ s.contains a.name = true → a.members = before ++ m :: after →
      (∀ m' ∈ before, s.contains m'.payload = true) → ¬ s.contains m.payload = true →
      Outcome s (.ofAlgebraic a) (.error (.undefined m.payload a.name (some m.tag))) s.drawId.2
  /-- The name of an alias is bound to the type of its target. -/
  | shared {a : Alias} {type : Ty} : ¬ s.contains a.name = true → s.get? a.target = some type →
      Outcome s (.ofAlias a) (.ok type.id) (s.bind a.name type)
  /-- The name of an algebraic type is bound to a new type. -/
  | fresh {a : Algebraic} {members : List Ty} : ¬ s.contains a.name = true →
      a.members.map (fun m => s.get? m.payload) = members.map some →
      Outcome s (.ofAlgebraic a) (.ok s.lastId.next)
        (s.drawId.2.bind a.name
          (.user s.lastId.next a members (TagTable.ofMembers a.members members)))

/-- The last step of a definition does not fail. -/
theorem define_of_typeOf {type : Ty} (hname : ¬ s.contains d.name = true)
    (htype : s.typeOf d = (.ok type, s')) :
    s'.insert d.name type = .ok (s'.bind d.name type) ∧
      s.define d = (.ok type.id, s'.bind d.name type) := by
  have hbindings := s.bindings_typeOf d
  rw [htype] at hbindings
  have hname' : ¬ s'.contains d.name = true := by
    rw [contains, get?, hbindings]
    exact hname
  exact ⟨insert_of_not_contains hname' type, define_of_typeOf_ok hname htype hname'⟩

/-- **What comes of a definition is on the list.** -/
theorem outcome_define (s : Scope) (d : TypeDefinition) :
    s.Outcome d (s.define d).1 (s.define d).2 := by
  by_cases hname : s.contains d.name = true
  · have hdefine : s.define d = (.error (.duplicate d.name), s) := by rw [define, if_pos hname]
    rw [hdefine]
    exact .duplicate hname
  cases d with
  | ofAlias a =>
    cases htarget : s.get? a.target with
    | none =>
      rw [define_of_typeOf_error hname (by rw [typeOf_ofAlias, htarget])]
      exact .target hname htarget
    | some type =>
      rw [(define_of_typeOf hname (by rw [typeOf_ofAlias, htarget])).2]
      exact .shared hname htarget
  | ofAlgebraic a =>
    cases hmembers : s.drawId.2.memberTypes a.name a.members with
    | error e =>
      obtain ⟨before, m, after, hsplit, hbefore, hm, rfl⟩ := memberTypes_eq_error_iff.1 hmembers
      rw [define_of_typeOf_error hname (by rw [typeOf_ofAlgebraic, hmembers]; rfl)]
      exact .payload hname hsplit hbefore hm
    | ok members =>
      rw [(define_of_typeOf hname (by rw [typeOf_ofAlgebraic, hmembers]; rfl)).2]
      exact .fresh hname (memberTypes_eq_ok_iff (s := s.drawId.2).1 hmembers)

theorem outcome_of_define {r : Except TypeError TypeId} (h : s.define d = (r, s')) :
    s.Outcome d r s' := by
  have hdefine := s.outcome_define d
  rwa [h] at hdefine

/-- A definition is accepted if and only if it is in order. -/
theorem define_eq_ok_iff :
    (∃ id s', s.define d = (.ok id, s')) ↔ Admits (s.contains · = true) d := by
  constructor
  · rintro ⟨id, s', hok⟩
    refine (admits_or_refused _ d).resolve_right ?_
    rintro ⟨e, he⟩
    obtain ⟨s'', herror, -⟩ := define_of_refused he
    rw [hok] at herror
    cases herror
  · intro h
    obtain ⟨id, s', hok, -⟩ := define_of_admits h
    exact ⟨id, s', hok⟩

/-- **A definition is atomic.**  Let a scope bind any names to any types.

* If a definition is accepted then its name was not bound, and now it is bound to a type with the
  id that is returned; all other names are bound as they were, and there is one name more.  An
  algebraic type has drawn the next id; an alias has the type of its target and has drawn none.
* If it is refused then all names are bound as they were, and there are as many.  An id has been
  drawn if and only if it is an algebraic type that refers to a type that is not bound.
* It is accepted if and only if its name is free and all that it refers to is bound.
* When the type of a definition with a free name has been found, the name can be bound. -/
theorem define_atomic (s : Scope) (d : TypeDefinition) :
    (∀ id s', s.define d = (.ok id, s') →
      s.contains d.name = false ∧ (∃ type, s'.get? d.name = some type ∧ type.id = id) ∧
      (∀ name, name ≠ d.name → s'.get? name = s.get? name) ∧ s'.size = s.size + 1 ∧
      (∀ a, d = .ofAlgebraic a → id = s.lastId.next ∧ s'.lastId = s.lastId.next) ∧
      (∀ a, d = .ofAlias a → s'.get? a.name = s.get? a.target ∧ s'.lastId = s.lastId)) ∧
    (∀ e s', s.define d = (.error e, s') →
      (∀ name, s'.get? name = s.get? name) ∧ s'.size = s.size ∧
      (∀ a name owner tag, d = .ofAlgebraic a → e = .undefined name owner tag →
        s'.lastId = s.lastId.next) ∧
      (∀ name, e = .duplicate name → s'.lastId = s.lastId) ∧
      (∀ a, d = .ofAlias a → s'.lastId = s.lastId)) ∧
    ((∃ id s', s.define d = (.ok id, s')) ↔ Admits (s.contains · = true) d) ∧
    (∀ type s₁, s.contains d.name = false → s.typeOf d = (.ok type, s₁) →
      ∃ s', s₁.insert d.name type = .ok s' ∧ s.define d = (.ok type.id, s')) := by
  refine ⟨fun id s' h => ?_, fun e s' h => ?_, define_eq_ok_iff, fun type s₁ hname htype => ?_⟩
  · cases outcome_of_define h with
    | @shared a type hname htarget =>
      refine ⟨Bool.eq_false_iff.2 hname, ⟨type, get?_bind_self .., rfl⟩,
        fun name hne => get?_bind_of_ne hne s type, size_bind .., nofun, fun a' ha => ?_⟩
      cases ha
      exact ⟨by rw [get?_bind_self, htarget], lastId_bind ..⟩
    | @fresh a members hname hmembers =>
      refine ⟨Bool.eq_false_iff.2 hname, ⟨_, get?_bind_self .., rfl⟩,
        fun name hne => ?_, ?_, fun a' ha => ⟨rfl, ?_⟩, nofun⟩
      · exact (get?_bind_of_ne hne s.drawId.2 _).trans (get?_drawId s name)
      · rw [size_bind, size_drawId]
      · rw [lastId_bind, lastId_drawId]
  · cases outcome_of_define h with
    | duplicate => exact ⟨fun _ => rfl, rfl, nofun, fun _ _ => rfl, fun _ _ => rfl⟩
    | target => exact ⟨fun _ => rfl, rfl, nofun, nofun, fun _ _ => rfl⟩
    | payload =>
      exact ⟨get?_drawId s, size_drawId s, fun _ _ _ _ _ _ => lastId_drawId s, nofun, nofun⟩
  · exact ⟨_, define_of_typeOf (Bool.eq_false_iff.1 hname) htype⟩

/-- A type that refers to itself is refused, and has spent an id. -/
example : (builtin.define (.ofAlgebraic ⟨"T", [⟨"A", "Int"⟩, ⟨"B", "T"⟩]⟩)).2.lastId = ⟨64⟩ := rfl

end DeclLang.Typing.Scope
