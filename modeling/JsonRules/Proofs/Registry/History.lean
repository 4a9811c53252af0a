import JsonRules.Registry

/-!
# Histories of registries

A program makes registries, copies them and registers operators in them, in any order.  Identities are
given once, so two registries of one identity are the same registry at two times; and a slot, once
given to a name, stays the slot of that name and of no other.
-/

namespace JsonRules

variable {σ : Type}

namespace Registry

/-- The second registry is the first at a later time: no name has lost or changed its slot. -/
structure Later (r s : Registry σ) : Prop where
  id_eq : s.id = r.id
  resolve?_eq : ∀ {name slot}, r.resolve? name = some slot → s.resolve? name = some slot

theorem Later.refl (r : Registry σ) : r.Later r := ⟨rfl, fun h => h⟩

theorem Later.trans {r s t : Registry σ} (hrs : r.Later s) (hst : s.Later t) : r.Later t :=
  ⟨hst.id_eq.trans hrs.id_eq, fun h => hst.resolve?_eq (hrs.resolve?_eq h)⟩

theorem resolve?_insert (r : Registry σ) (name : String) (operator : Operator σ) (other : String) :
    (r.insert name operator).resolve? other =
      if name = other then some (r.slotFor name) else r.resolve? other := by
  rw [insert, slotFor]
  cases hname : r.resolve? name with
  | some slot =>
      by_cases heq : name = other
      · rw [if_pos heq, ← heq]
        exact hname
      · rw [if_neg heq]
        rfl
  | none =>
      change (r.index.insert name r.size)[other]? = _
      rw [Std.TreeMap.getElem?_insert]
      by_cases heq : name = other
      · rw [if_pos (Std.compare_eq_iff_eq.mpr heq), if_pos heq]
        rfl
      · rw [if_neg (mt Std.compare_eq_iff_eq.mp heq), if_neg heq]
        rfl

theorem id_insert (r : Registry σ) (name : String) (operator : Operator σ) :
    (r.insert name operator).id = r.id := by
  rw [insert]
  cases r.resolve? name with
  | some slot => rfl
  | none => rfl

theorem later_insert (r : Registry σ) (name : String) (operator : Operator σ) :
    r.Later (r.insert name operator) := by
  refine ⟨id_insert r name operator, fun {other slot} h => ?_⟩
  rw [resolve?_insert]
  by_cases heq : name = other
  · rw [if_pos heq, slotFor, heq, h]
    rfl
  · rw [if_neg heq, h]

theorem insertDefinitions_induction {P : Registry σ → Prop} {definitions : List (Definition σ)}
    (hinsert : ∀ d ∈ definitions, ∀ name ∈ d.aliases ++ [d.name], ∀ r, P r →
      P (r.insert name d.operator))
    {r : Registry σ} (h : P r) : P (definitions.foldl insertDefinition r) := by
  induction definitions generalizing r with
  | nil => exact h
  | cons d definitions ih =>
      have hnames : ∀ names : List String, (∀ name ∈ names, name ∈ d.aliases ++ [d.name]) →
          ∀ r : Registry σ, P r → P (names.foldl (fun r name => r.insert name d.operator) r) := by
        intro names
        induction names with
        | nil => exact fun _ _ hr => hr
        | cons name names ihnames =>
            intro hmem r hr
            have hfirst := hinsert d List.mem_cons_self name (hmem name List.mem_cons_self) r hr
            exact ihnames (fun other h => hmem other (List.mem_cons_of_mem name h)) _ hfirst
      exact ih (fun d' hd' => hinsert d' (List.mem_cons_of_mem d hd'))
        (hnames _ (fun _ h => h) r h)

theorem later_insertDefinitions (definitions : List (Definition σ)) (r : Registry σ) :
    r.Later (definitions.foldl insertDefinition r) :=
  insertDefinitions_induction (fun d _ name _ s h => h.trans (later_insert s name d.operator))
    (Later.refl r)

/-- The slot of a name is the one in which the name stands. -/
def Indexed (r : Registry σ) : Prop :=
  ∀ name slot, r.resolve? name = some slot ↔ r.names[slot]? = some name

theorem indexed_withId (id : RegistryId) : (withId id : Registry σ).Indexed := by
  intro name slot
  have hnone : (withId id : Registry σ).resolve? name = none := Std.TreeMap.getElem?_emptyc
  rw [hnone]
  exact ⟨(by intro h; cases h), (by intro h; cases h)⟩

theorem Indexed.names_insert {r : Registry σ} (h : r.Indexed) (name : String)
    (operator : Operator σ) :
    (r.insert name operator).names =
      if r.contains name then r.names else r.names ++ [name] := by
  rw [Registry.insert, contains]
  cases hname : r.resolve? name with
  | none => exact List.map_append
  | some slot =>
      have hslot := (h name slot).mp hname
      have hlt : slot < (r.slots.map Slot.name).length := (List.getElem?_eq_some_iff.mp hslot).1
      change (r.slots.set slot ⟨name, operator⟩).map Slot.name = r.names
      rw [List.map_set]
      refine List.ext_getElem? fun i => ?_
      rw [List.getElem?_set]
      by_cases hi : slot = i
      · subst hi
        rw [if_pos rfl, if_pos hlt]
        exact hslot.symm
      · rw [if_neg hi]
        rfl

theorem Indexed.insert {r : Registry σ} (h : r.Indexed) (name : String) (operator : Operator σ) :
    (r.insert name operator).Indexed := by
  intro other slot
  rw [resolve?_insert, h.names_insert, contains, slotFor]
  cases hname : r.resolve? name with
  | some i =>
      rw [← hname, hname, if_pos (show (some i).isSome = true from rfl), ← h other slot]
      by_cases heq : name = other
      · rw [if_pos heq, ← heq, hname]
        rfl
      · rw [if_neg heq]
  | none =>
      -- The new name comes last, and before it was registered no name had the last slot.
      have hnew : r.names[slot]? ≠ some name := by
        intro hi
        cases hname.symm.trans ((h name slot).mpr hi)
      have hsize : r.names.length = r.size := List.length_map _
      have hlast : (r.names ++ [name])[slot]? =
          if slot = r.size then some name else r.names[slot]? := by
        rw [← hsize]
        by_cases hslot : slot = r.names.length
        · rw [if_pos hslot, hslot, List.getElem?_concat_length]
        · rw [if_neg hslot, List.getElem?_append]
          by_cases hlt : slot < r.names.length
          · rw [if_pos hlt]
          · have hbeyond : [name].length ≤ slot - r.names.length := by
              rw [List.length_singleton]
              omega
            rw [if_neg hlt, List.getElem?_eq_none hbeyond,
              List.getElem?_eq_none (Nat.le_of_not_lt hlt)]
      rw [if_neg (show ¬(none : Option Nat).isSome = true by simp), hlast]
      by_cases hslot : slot = r.size
      · have hfree : r.resolve? other ≠ some r.size := by
          intro hi
          have hlt := (List.getElem?_eq_some_iff.mp ((h other _).mp hi)).1
          omega
        by_cases heq : name = other
        · simp [heq, hslot]
        · simp [heq, hslot, hfree]
      · rw [if_neg hslot]
        by_cases heq : name = other
        · subst heq
          simp [hnew, Ne.symm hslot]
        · rw [if_neg heq]
          exact h other slot

theorem Indexed.insertDefinitions (definitions : List (Definition σ)) {r : Registry σ}
    (h : r.Indexed) : (definitions.foldl insertDefinition r).Indexed :=
  insertDefinitions_induction (fun d _ name _ _ hr => hr.insert name d.operator) h

theorem mem_slots_insert {r : Registry σ} {name : String} {operator : Operator σ} {slot : Slot σ}
    (h : slot ∈ (r.insert name operator).slots) : slot ∈ r.slots ∨ slot = ⟨name, operator⟩ := by
  rw [insert] at h
  cases hname : r.resolve? name with
  | some i =>
      rw [hname] at h
      exact List.mem_or_eq_of_mem_set h
  | none =>
      rw [hname] at h
      rcases List.mem_append.mp h with hold | hnew
      · exact .inl hold
      · exact .inr (List.mem_singleton.mp hnew)

theorem Indexed.lookup?_eq_none_iff {r : Registry σ} (h : r.Indexed) {name : String} :
    r.lookup? name = none ↔ r.contains name = false := by
  rw [lookup?, contains]
  cases hname : r.resolve? name with
  | none => simp
  | some i =>
      have hslot := (h name i).mp hname
      rw [names, List.getElem?_map, Option.map_eq_some_iff] at hslot
      obtain ⟨slot, hslot, _⟩ := hslot
      simp [get?, hslot]

theorem Indexed.lookup?_insert {r : Registry σ} (h : r.Indexed) {name other : String}
    (hne : other ≠ name) (operator : Operator σ) :
    (r.insert name operator).lookup? other = r.lookup? other := by
  rw [lookup?, lookup?, resolve?_insert, if_neg (Ne.symm hne)]
  cases hother : r.resolve? other with
  | none => rfl
  | some slot =>
      have hslot := (h other slot).mp hother
      rw [Option.bind_some, Option.bind_some, get?, get?, Registry.insert]
      cases hname : r.resolve? name with
      | some i =>
          have hi : i ≠ slot := by
            rintro rfl
            exact hne (Option.some.inj (hslot.symm.trans ((h name i).mp hname)))
          dsimp only
          rw [List.getElem?_set_ne hi]
      | none =>
          have hlt : slot < r.slots.length := by
            have hnames := (List.getElem?_eq_some_iff.mp hslot).1
            rwa [names, List.length_map] at hnames
          dsimp only
          rw [List.getElem?_append_left hlt]

end Registry

/-- What a program may do with its registries, which it knows by their numbers. -/
inductive RegistryAction (σ : Type) where
  | create (definitions : List (Definition σ))
  | clone (i : Nat)
  | register (i : Nat) (name : String) (operator : Operator σ)

/-- The registries that a program has made, and the identities that are left. -/
structure Fleet (σ : Type) where
  supply : IdSupply
  registries : List (Registry σ)

namespace Fleet

def initial : Fleet σ := ⟨.initial, []⟩

def add (f : Fleet σ) (make : StateM IdSupply (Registry σ)) : Fleet σ :=
  ⟨(make.run f.supply).2, f.registries ++ [(make.run f.supply).1]⟩

def act (f : Fleet σ) : RegistryAction σ → Fleet σ
  | .create definitions => f.add (Registry.ofDefinitions definitions)
  | .clone i =>
      match f.registries[i]? with
      | some r => f.add r.clone
      | none => f
  | .register i name operator =>
      { f with
        registries := f.registries.modify i fun r => (Registry.register name operator r).state }

def run (f : Fleet σ) (actions : List (RegistryAction σ)) : Fleet σ := actions.foldl act f

/-- No identity is used twice or still to be given, and names and slots agree. -/
structure Sound (f : Fleet σ) : Prop where
  nodup : (f.registries.map Registry.id).Nodup
  given : ∀ r ∈ f.registries, r.id.number < f.supply.next
  indexed : ∀ r ∈ f.registries, r.Indexed

theorem sound_initial : (initial : Fleet σ).Sound where
  nodup := List.nodup_nil
  given _ hr := absurd hr List.not_mem_nil
  indexed _ hr := absurd hr List.not_mem_nil

structure Makes (make : StateM IdSupply (Registry σ)) (supply : IdSupply) : Prop where
  id_eq : (make.run supply).1.id = ⟨supply.next⟩
  supply_eq : (make.run supply).2 = ⟨supply.next + 1⟩
  indexed : (make.run supply).1.Indexed

theorem makes_ofDefinitions (definitions : List (Definition σ)) (supply : IdSupply) :
    Makes (Registry.ofDefinitions definitions) supply where
  id_eq := (Registry.later_insertDefinitions definitions _).id_eq
  supply_eq := rfl
  indexed := (Registry.indexed_withId ⟨supply.next⟩).insertDefinitions definitions

theorem makes_clone {r : Registry σ} (h : r.Indexed) (supply : IdSupply) :
    Makes r.clone supply := ⟨rfl, rfl, h⟩

theorem Sound.add {f : Fleet σ} (h : f.Sound) {make : StateM IdSupply (Registry σ)}
    (hmake : Makes make f.supply) : (f.add make).Sound := by
  obtain ⟨hid, hsupply, hindexed⟩ := hmake
  refine ⟨?_, ?_, ?_⟩
  · rw [Fleet.add, List.map_append, List.nodup_append]
    refine ⟨h.nodup, by simp, ?_⟩
    rintro i hi j hj rfl
    obtain ⟨r, hr, rfl⟩ := List.mem_map.mp hi
    have hnext := h.given r hr
    rw [List.mem_singleton.mp hj, hid] at hnext
    exact Nat.lt_irrefl _ hnext
  · intro r hr
    rw [Fleet.add, hsupply]
    rcases List.mem_append.mp hr with hold | hnew
    · exact Nat.lt_succ_of_lt (h.given r hold)
    · rw [List.mem_singleton.mp hnew, hid]
      exact Nat.lt_succ_self _
  · intro r hr
    rcases List.mem_append.mp hr with hold | hnew
    · exact h.indexed r hold
    · rw [List.mem_singleton.mp hnew]
      exact hindexed

theorem register_state (name : String) (operator : Operator σ) (r : Registry σ) :
    (Registry.register name operator r).state = r.insert name operator := rfl

theorem map_id_modify (i : Nat) (name : String) (operator : Operator σ)
    (registries : List (Registry σ)) :
    (registries.modify i fun r => (Registry.register name operator r).state).map Registry.id =
      registries.map Registry.id := by
  refine List.ext_getElem? fun j => ?_
  rw [List.getElem?_map, List.getElem?_map, List.getElem?_modify]
  cases registries[j]? with
  | none => rfl
  | some r =>
      by_cases heq : i = j
      · simp [heq, register_state, Registry.id_insert]
      · simp [heq]

theorem Sound.act {f : Fleet σ} (h : f.Sound) (action : RegistryAction σ) :
    (f.act action).Sound := by
  cases action with
  | create definitions => exact h.add (makes_ofDefinitions definitions f.supply)
  | clone i =>
      rw [Fleet.act]
      cases hi : f.registries[i]? with
      | none => exact h
      | some r => exact h.add (makes_clone (h.indexed r (List.mem_of_getElem? hi)) f.supply)
  | register i name operator =>
      have hids := map_id_modify i name operator f.registries
      refine ⟨hids ▸ h.nodup, fun r hr => ?_, fun r hr => ?_⟩
      · have hmem := List.mem_map_of_mem (f := Registry.id) hr
        rw [Fleet.act, hids] at hmem
        obtain ⟨old, hold, hid⟩ := List.mem_map.mp hmem
        rw [← hid]
        exact h.given old hold
      · obtain ⟨j, hj⟩ := List.mem_iff_getElem?.mp hr
        rw [Fleet.act, List.getElem?_modify] at hj
        obtain ⟨old, hold, rfl⟩ := Option.map_eq_some_iff.mp hj
        have hindexed := h.indexed old (List.mem_of_getElem? hold)
        by_cases heq : i = j
        · rw [if_pos heq]
          exact hindexed.insert name operator
        · rw [if_neg heq]
          exact hindexed

theorem Sound.run {f : Fleet σ} (h : f.Sound) (actions : List (RegistryAction σ)) :
    (f.run actions).Sound := by
  induction actions generalizing f with
  | nil => exact h
  | cons action actions ih => exact ih (h.act action)

theorem later_act (f : Fleet σ) (action : RegistryAction σ) {i : Nat} {r : Registry σ}
    (hr : f.registries[i]? = some r) : ∃ s, (f.act action).registries[i]? = some s ∧ r.Later s := by
  have hadd : ∀ make, (f.add make).registries[i]? = some r := by
    intro make
    rw [add, List.getElem?_append_left (List.getElem?_eq_some_iff.mp hr).1]
    exact hr
  cases action with
  | create definitions => exact ⟨r, hadd _, Registry.Later.refl r⟩
  | clone j =>
      rw [Fleet.act]
      cases f.registries[j]? with
      | none => exact ⟨r, hr, Registry.Later.refl r⟩
      | some _ => exact ⟨r, hadd _, Registry.Later.refl r⟩
  | register j name operator =>
      rw [Fleet.act]
      dsimp only
      rw [List.getElem?_modify, hr]
      by_cases heq : j = i
      · refine ⟨r.insert name operator, ?_, Registry.later_insert r name operator⟩
        simp [heq, register_state]
      · refine ⟨r, ?_, Registry.Later.refl r⟩
        simp [heq]

theorem later_run (f : Fleet σ) (actions : List (RegistryAction σ)) {i : Nat} {r : Registry σ}
    (hr : f.registries[i]? = some r) : ∃ s, (f.run actions).registries[i]? = some s ∧ r.Later s := by
  induction actions generalizing f r with
  | nil => exact ⟨r, hr, Registry.Later.refl r⟩
  | cons action actions ih =>
      obtain ⟨s, hs, hrs⟩ := later_act f action hr
      obtain ⟨t, ht, hst⟩ := ih (f.act action) hs
      exact ⟨t, ht, hrs.trans hst⟩

end Fleet

end JsonRules
