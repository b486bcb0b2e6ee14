import DeclLang.Proofs.Typing.DefineBeforeUse

/-!
# Checking a user type

A user type is checked as a whole.  Its members are looked up in the order of its definition, and
what is found takes the place of what the type carried before only when all of them have been found
(`Scope.checkInPlace_eq`).  So a check that is refused leaves no trace, and of all scopes that a
type has been checked against only the last one that accepts it can be seen from the type
(`Scope.checkInEach_of_last`).

The types of the members are kept by place and by tag.  Several members may have one tag; the last
of them counts, since each one that is entered in the table replaces the one before
(`TagTable.lookup_ofMembers`).  The two agree (`UserType.Resolved`).

`Scope.checkInPlace_spec` puts this together.
-/

namespace DeclLang.Typing

/-! ### Tags -/

namespace TagTable

variable {table : TagTable} {tag : String} {type : Ty}

theorem lookup_insert (table : TagTable) (tag other : String) (type : Ty) :
    (table.insert tag type).lookup other =
      if other = tag then some type else table.lookup other := by
  have hfilter : other ≠ tag → (table.filter (·.1 ≠ tag)).lookup other = table.lookup other := by
    intro hother
    induction table with
    | nil => rfl
    | cons entry table ih =>
      by_cases htag : entry.1 = tag
      · have hentry : (other == entry.1) = false := beq_false_of_ne (htag ▸ hother)
        rw [List.filter_cons_of_neg (by simpa using htag), ih, List.lookup_cons, hentry]
      · rw [List.filter_cons_of_pos (by simpa using htag), List.lookup_cons, List.lookup_cons, ih]
  rw [insert, List.lookup_cons]
  by_cases hother : other = tag
  · rw [if_pos hother, beq_iff_eq.2 hother]
  · rw [if_neg hother, beq_false_of_ne hother, hfilter hother]

/-- A tag that is entered has one entry. -/
theorem nodup_insert (h : (table.map Prod.fst).Nodup) (tag : String) (type : Ty) :
    ((table.insert tag type).map Prod.fst).Nodup := by
  rw [insert, List.map_cons, List.nodup_cons]
  refine ⟨fun hmem => ?_, h.sublist (List.filter_sublist.map _)⟩
  obtain ⟨entry, hentry, htag⟩ := List.mem_map.1 hmem
  exact absurd htag (by simpa using List.of_mem_filter hentry)

theorem nodup_ofMembers (members : List Member) (types : List Ty) :
    ((ofMembers members types).map Prod.fst).Nodup := by
  have hfold (entries : List (Member × Ty)) {table : TagTable}
      (h : (table.map Prod.fst).Nodup) :
      ((entries.foldl (fun table entry => table.insert entry.1.tag entry.2) table).map
        Prod.fst).Nodup := by
    induction entries generalizing table with
    | nil => exact h
    | cons entry entries ih => exact ih (nodup_insert h entry.1.tag entry.2)
  exact hfold _ .nil

theorem lookup_foldl_insert (entries : List (Member × Ty)) (table : TagTable) (tag : String) :
    (entries.foldl (fun table entry => table.insert entry.1.tag entry.2) table).lookup tag =
      ((entries.reverse.find? (·.1.tag = tag)).map Prod.snd).or (table.lookup tag) := by
  induction entries generalizing table with
  | nil => rfl
  | cons entry entries ih =>
    rw [List.foldl_cons, ih, lookup_insert, List.reverse_cons, List.find?_append]
    cases entries.reverse.find? (·.1.tag = tag) <;> by_cases htag : tag = entry.1.tag <;>
      simp [htag, eq_comm]

/-- **The last member with a tag counts.** -/
theorem lookup_ofMembers (members : List Member) (types : List Ty) (tag : String) :
    (ofMembers members types).lookup tag =
      ((members.zip types).reverse.find? (·.1.tag = tag)).map Prod.snd := by
  rw [ofMembers, lookup_foldl_insert, List.lookup_nil, Option.or_none]

theorem find?_zip_eq_none {members : List Member} (h : ∀ m ∈ members, m.tag ≠ tag)
    (types : List Ty) : (members.zip types).reverse.find? (·.1.tag = tag) = none := by
  rw [List.find?_eq_none]
  intro entry hentry
  have hmem : entry.1 ∈ members := (List.of_mem_zip (List.mem_reverse.1 hentry)).1
  simpa using h entry.1 hmem

theorem lookup_ofMembers_eq_none {members : List Member} (h : ∀ m ∈ members, m.tag ≠ tag)
    (types : List Ty) : (ofMembers members types).lookup tag = none := by
  rw [lookup_ofMembers, find?_zip_eq_none h, Option.map_none]

/-- Under a tag there is what stands in the place of the last member with it. -/
theorem lookup_ofMembers_of_last {before after : List Member} {m : Member} {types : List Ty}
    (hlength : types.length = (before ++ m :: after).length)
    (hlast : ∀ m' ∈ after, m'.tag ≠ m.tag) :
    (ofMembers (before ++ m :: after) types).lookup m.tag = types[before.length]? := by
  have hlt : before.length < types.length := by
    rw [hlength]
    simp
  -- The types are divided where the members are.
  have htypes : types =
      types.take before.length ++ types[before.length] :: types.drop (before.length + 1) := by
    rw [← List.drop_eq_getElem_cons hlt, List.take_append_drop]
  have hbefore : before.length = (types.take before.length).length := by
    rw [List.length_take, Nat.min_eq_left (Nat.le_of_lt hlt)]
  have hzip : (before ++ m :: after).zip types = before.zip (types.take before.length) ++
      (m, types[before.length]) :: after.zip (types.drop (before.length + 1)) := by
    rw [← List.zip_cons_cons, ← List.zip_append hbefore, ← htypes]
  rw [lookup_ofMembers, hzip, List.reverse_append, List.reverse_cons, List.find?_append,
    List.find?_append, find?_zip_eq_none hlast, List.getElem?_eq_getElem hlt]
  simp

example : (ofMembers [⟨"A", "Int"⟩, ⟨"B", "Int"⟩, ⟨"A", "String"⟩]
    [.int, .int, .string]).lookup "A" = some .string := rfl

end TagTable

/-! ### Types by place and by tag -/

/-- The members carry what their payloads are bound to in the scope. -/
structure UserType.Resolved (s : Scope) (u : UserType) : Prop where
  /-- There is a type for each member. -/
  length : u.members.length = u.definition.members.length
  /-- In its place there is the type of its payload. -/
  getElem? {i : Nat} {m : Member} :
    u.definition.members[i]? = some m → u.members[i]? = s.get? m.payload
  /-- Under its tag there is the type of its payload, if no later member has that tag. -/
  member?_tag {before after : List Member} {m : Member} :
    u.definition.members = before ++ m :: after → (∀ m' ∈ after, m'.tag ≠ m.tag) →
      u.member? m.tag = s.get? m.payload
  /-- There is nothing under any other tag. -/
  member?_other {tag : String} :
    (∀ m ∈ u.definition.members, m.tag ≠ tag) → u.member? tag = none
  /-- The table agrees with the list: a tag has the type in the place of its last member. -/
  member?_place {before after : List Member} {m : Member} :
    u.definition.members = before ++ m :: after → (∀ m' ∈ after, m'.tag ≠ m.tag) →
      u.member? m.tag = u.members[before.length]?
  /-- The table has one entry for each tag. -/
  nodup : (u.table.map Prod.fst).Nodup

namespace Scope

variable {s : Scope} {u u' : UserType}

theorem resolved_of_map {u : UserType}
    (h : u.definition.members.map (fun m => s.get? m.payload) = u.members.map some)
    (htable : u.table = .ofMembers u.definition.members u.members) : u.Resolved s := by
  have hlength : u.members.length = u.definition.members.length := by
    simpa using (congrArg List.length h).symm
  have hget {i : Nat} {m : Member} (hm : u.definition.members[i]? = some m) :
      u.members[i]? = s.get? m.payload := by
    have hi := congrArg (·[i]?) h
    simp only [List.getElem?_map, hm, Option.map_some] at hi
    cases hmember : u.members[i]? with
    | none => rw [hmember] at hi; cases hi
    | some type => rw [hmember] at hi; exact (Option.some.inj hi).symm
  have hplace {before after : List Member} {m : Member}
      (hmembers : u.definition.members = before ++ m :: after)
      (hlast : ∀ m' ∈ after, m'.tag ≠ m.tag) : u.member? m.tag = u.members[before.length]? := by
    rw [UserType.member?, htable, hmembers]
    exact TagTable.lookup_ofMembers_of_last (hmembers ▸ hlength) hlast
  refine ⟨hlength, hget, fun hmembers hlast => ?_, fun hother => ?_, hplace, ?_⟩
  · rw [hplace hmembers hlast]
    exact hget (by rw [hmembers]; simp)
  · rw [UserType.member?, htable, TagTable.lookup_ofMembers_eq_none hother]
  · rw [htable]
    exact TagTable.nodup_ofMembers _ _

/-! ### Members -/

theorem memberTypes_eq_ok_iff {owner : String} {ms : List Member} {types : List Ty} :
    s.memberTypes owner ms = .ok types ↔ ms.map (fun m => s.get? m.payload) = types.map some := by
  induction ms generalizing types with
  | nil =>
    rw [memberTypes, List.map_nil, eq_comm, Except.ok.injEq, eq_comm (a := []), List.map_eq_nil_iff]
  | cons m ms ih =>
    rw [memberTypes, List.map_cons]
    cases s.get? m.payload with
    | none => cases types <;> simp
    | some type =>
      cases types with
      | nil => cases s.memberTypes owner ms <;> simp [Except.map]
      | cons type' types =>
        rw [List.map_cons, List.cons.injEq, ← ih]
        cases s.memberTypes owner ms <;> simp [Except.map]

/-- The first member whose payload is not bound is the one that is reported. -/
theorem memberTypes_eq_error_iff {owner : String} {ms : List Member} {e : TypeError} :
    s.memberTypes owner ms = .error e ↔ ∃ before m after, ms = before ++ m :: after ∧
      (∀ m' ∈ before, s.contains m'.payload = true) ∧ ¬ s.contains m.payload = true ∧
        e = .undefined m.payload owner (some m.tag) := by
  constructor
  · intro h
    induction ms with
    | nil => cases h
    | cons m ms ih =>
      rw [memberTypes] at h
      cases hm : s.get? m.payload with
      | none =>
        rw [hm] at h
        cases h
        exact ⟨[], m, ms, rfl, by simp, get?_eq_none_iff.1 hm, rfl⟩
      | some type =>
        rw [hm] at h
        cases hms : s.memberTypes owner ms with
        | ok types => rw [hms] at h; cases h
        | error e' =>
          rw [hms] at h
          cases h
          obtain ⟨before, m', after, rfl, hbefore, hm', rfl⟩ := ih hms
          refine ⟨m :: before, m', after, rfl, ?_, hm', rfl⟩
          exact List.forall_mem_cons.2 ⟨contains_iff.2 ⟨type, hm⟩, hbefore⟩
  · rintro ⟨before, m, after, rfl, hbefore, hm, rfl⟩
    exact memberTypes_of_unknown owner hbefore hm

/-! ### One check -/

/-- The user type changes once all its members have been found. -/
theorem checkInPlace_eq (s : Scope) (u : UserType) :
    s.checkInPlace u = match s.memberTypes u.name u.definition.members with
      | .error e => (.error e, u)
      | .ok members => (.ok (), u.fill members) := by
  rw [checkInPlace, check]
  cases s.memberTypes u.name u.definition.members <;> rfl

/-- A check that succeeds has found a type for each member, and one that fails has not found one. -/
theorem checkInPlace_cases (s : Scope) (u : UserType) :
    (∃ members, u.definition.members.map (fun m => s.get? m.payload) = members.map some ∧
      s.checkInPlace u = (.ok (), u.fill members)) ∨
    (∃ before m after, u.definition.members = before ++ m :: after ∧
      (∀ m' ∈ before, s.contains m'.payload = true) ∧ ¬ s.contains m.payload = true ∧
        s.checkInPlace u = (.error (.undefined m.payload u.name (some m.tag)), u)) := by
  rw [checkInPlace_eq]
  cases hfound : s.memberTypes u.name u.definition.members with
  | ok members => exact .inl ⟨members, memberTypes_eq_ok_iff.1 hfound, rfl⟩
  | error e =>
    obtain ⟨before, m, after, hmembers, hbefore, hm, rfl⟩ := memberTypes_eq_error_iff.1 hfound
    exact .inr ⟨before, m, after, hmembers, hbefore, hm, rfl⟩

/-- All payloads of the definition are bound. -/
def Accepts (s : Scope) (definition : Algebraic) : Prop :=
  ∀ m ∈ definition.members, s.contains m.payload = true

theorem checkInPlace_of_accepts (h : s.Accepts u.definition) :
    ∃ members, u.definition.members.map (fun m => s.get? m.payload) = members.map some ∧
      s.checkInPlace u = (.ok (), u.fill members) := by
  refine (s.checkInPlace_cases u).resolve_right ?_
  rintro ⟨before, m, after, hmembers, -, hm, -⟩
  exact hm (h m (by simp [hmembers]))

theorem checkInPlace_of_not_accepts (h : ¬ s.Accepts u.definition) :
    ∃ before m after, u.definition.members = before ++ m :: after ∧
      (∀ m' ∈ before, s.contains m'.payload = true) ∧ ¬ s.contains m.payload = true ∧
        s.checkInPlace u = (.error (.undefined m.payload u.name (some m.tag)), u) := by
  refine (s.checkInPlace_cases u).resolve_left ?_
  rintro ⟨members, hmap, -⟩
  exact h fun m hm => contains_of_map_get? hmap hm

/-- What was there before has no part in what a successful check leaves. -/
theorem checkInPlace_congr (h : s.Accepts u.definition) (hid : u'.id = u.id)
    (hdefinition : u'.definition = u.definition) :
    (s.checkInPlace u').2 = (s.checkInPlace u).2 := by
  obtain ⟨members, hmap, hcheck⟩ := checkInPlace_of_accepts h
  obtain ⟨members', hmap', hcheck'⟩ := checkInPlace_of_accepts (u := u') (hdefinition ▸ h)
  obtain rfl : members' = members := by
    rw [hdefinition] at hmap'
    exact List.map_injective_iff.2 (fun _ _ => Option.some.inj) (hmap'.symm.trans hmap)
  rw [hcheck, hcheck', UserType.fill, UserType.fill, hid, hdefinition]

theorem id_checkInPlace (s : Scope) (u : UserType) : (s.checkInPlace u).2.id = u.id := by
  rcases s.checkInPlace_cases u with ⟨_, -, h⟩ | ⟨_, _, _, -, -, -, h⟩
  · rw [h]
    rfl
  · rw [h]

theorem definition_checkInPlace (s : Scope) (u : UserType) :
    (s.checkInPlace u).2.definition = u.definition := by
  rcases s.checkInPlace_cases u with ⟨_, -, h⟩ | ⟨_, _, _, -, -, -, h⟩
  · rw [h]
    rfl
  · rw [h]

/-! ### One check after another -/

/-- The user type that is left when it is checked against one scope after another. -/
def checkInEach (scopes : List Scope) (u : UserType) : UserType :=
  scopes.foldl (fun u s => (s.checkInPlace u).2) u

theorem checkInEach_cons (s : Scope) (scopes : List Scope) (u : UserType) :
    checkInEach (s :: scopes) u = checkInEach scopes (s.checkInPlace u).2 := rfl

/-- Scopes that refuse a type leave no trace on it. -/
theorem checkInEach_of_refused {scopes : List Scope}
    (h : ∀ s ∈ scopes, ¬ s.Accepts u.definition) : checkInEach scopes u = u := by
  induction scopes with
  | nil => rfl
  | cons s scopes ih =>
    obtain ⟨hs, hscopes⟩ := List.forall_mem_cons.1 h
    obtain ⟨_, _, _, -, -, -, hcheck⟩ := checkInPlace_of_not_accepts hs
    rw [checkInEach_cons, hcheck]
    exact ih hscopes

/-- **The last scope that accepts a type decides.** -/
theorem checkInEach_of_last (before : List Scope) {after : List Scope}
    (h : s.Accepts u.definition) (hafter : ∀ s' ∈ after, ¬ s'.Accepts u.definition) :
    checkInEach (before ++ s :: after) u = (s.checkInPlace u).2 := by
  -- The scopes before it change the members, but neither the id nor the definition.
  induction before generalizing u with
  | nil =>
    rw [List.nil_append, checkInEach_cons]
    exact checkInEach_of_refused (by rwa [definition_checkInPlace])
  | cons s' before ih =>
    have hdefinition := s'.definition_checkInPlace u
    rw [List.cons_append, checkInEach_cons, ih (by rwa [hdefinition]) (by rwa [hdefinition])]
    exact checkInPlace_congr h (s'.id_checkInPlace u) hdefinition

/-- **A check is all or nothing.**  Whatever a user type carries from checks before, against this
scope or others:

* it is accepted if and only if all payloads of its definition are bound, and then its members carry
  what the payloads are bound to, by place and by tag;
* otherwise the error names the first payload that is not bound, with its own tag and the name of
  the type, and the user type is what it was;
* its id and its definition stay;
* of all scopes that it is checked against, the last one that accepts it decides what it carries,
  and the others cannot be seen from it. -/
theorem checkInPlace_spec (s : Scope) (u : UserType) :
    ((s.checkInPlace u).1 = .ok () ↔ s.Accepts u.definition) ∧
    (s.Accepts u.definition → (s.checkInPlace u).2.Resolved s) ∧
    (∀ e, (s.checkInPlace u).1 = .error e ↔
      ∃ before m after, u.definition.members = before ++ m :: after ∧
        (∀ m' ∈ before, s.contains m'.payload = true) ∧ ¬ s.contains m.payload = true ∧
          e = .undefined m.payload u.name (some m.tag)) ∧
    (¬ s.Accepts u.definition → (s.checkInPlace u).2 = u) ∧
    (s.checkInPlace u).2.id = u.id ∧ (s.checkInPlace u).2.definition = u.definition ∧
    (∀ scopes : List Scope, (∀ s' ∈ scopes, ¬ s'.Accepts u.definition) → checkInEach scopes u = u) ∧
    (∀ before after : List Scope, s.Accepts u.definition →
      (∀ s' ∈ after, ¬ s'.Accepts u.definition) →
        checkInEach (before ++ s :: after) u = (s.checkInPlace u).2) := by
  refine ⟨?_, fun h => ?_, fun e => ?_, fun h => ?_, s.id_checkInPlace u,
    s.definition_checkInPlace u, fun scopes => checkInEach_of_refused,
    fun before after => checkInEach_of_last before⟩
  · constructor
    · intro hok
      by_contra h
      obtain ⟨_, _, _, -, -, -, hcheck⟩ := checkInPlace_of_not_accepts h
      rw [hcheck] at hok
      cases hok
    · intro h
      obtain ⟨_, -, hcheck⟩ := checkInPlace_of_accepts h
      rw [hcheck]
  · obtain ⟨members, hmap, hcheck⟩ := checkInPlace_of_accepts h
    rw [hcheck]
    exact resolved_of_map hmap rfl
  · rw [← memberTypes_eq_error_iff, checkInPlace_eq]
    cases s.memberTypes u.name u.definition.members <;> simp
  · obtain ⟨_, _, _, -, -, -, hcheck⟩ := checkInPlace_of_not_accepts h
    rw [hcheck]

end Scope

end DeclLang.Typing
