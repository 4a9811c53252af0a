import JsonRules.Builtin.Catalogue
import JsonRules.Proofs.Lifting
import JsonRules.Proofs.Registry.History
import Mathlib.Data.Finset.Card

/-!
# What has been registered

A registry is known by the operators that were registered in it, from first to last: its names are
theirs in the order in which they first came, and the operator of a name is the last one.  Copies begin
with what was registered in their original, and after that each registry goes its own way.
-/

namespace JsonRules

variable {σ : Type}

namespace Registry

def registerAll (r : Registry σ) (registrations : List (String × Operator σ)) : Registry σ :=
  registrations.foldl (fun r d => (register d.1 d.2 r).state) r

theorem registerAll_append (r : Registry σ) (first second : List (String × Operator σ)) :
    r.registerAll (first ++ second) = (r.registerAll first).registerAll second :=
  List.foldl_append

theorem registerAll_concat (r : Registry σ) (first : List (String × Operator σ)) (name : String)
    (operator : Operator σ) :
    r.registerAll (first ++ [(name, operator)]) = (r.registerAll first).insert name operator :=
  registerAll_append r first [(name, operator)]

theorem Indexed.registerAll {r : Registry σ} (h : r.Indexed)
    (registrations : List (String × Operator σ)) : (r.registerAll registrations).Indexed := by
  induction registrations generalizing r with
  | nil => exact h
  | cons d registrations ih => exact ih (h.insert d.1 d.2)

namespace Indexed

variable {r : Registry σ}

theorem contains_iff (h : r.Indexed) (name : String) : r.contains name = true ↔ name ∈ r.names := by
  rw [contains, Option.isSome_iff_exists, List.mem_iff_getElem?]
  exact exists_congr (h name)

theorem nodup_names (h : r.Indexed) : r.names.Nodup := by
  rw [List.nodup_iff_getElem?_ne_getElem?]
  intro i j hij hj heq
  -- Two slots of one name would both be the slot of that name.
  have hname : r.names[j]? = some r.names[j] := List.getElem?_eq_getElem hj
  have hi := (h _ i).mpr (heq.trans hname)
  have hslots := hi.symm.trans ((h _ j).mpr hname)
  have hsame : i = j := Option.some.inj hslots
  omega

theorem isSome_get? (h : r.Indexed) {name : String} {slot : Nat}
    (hslot : r.resolve? name = some slot) : (r.get? slot).isSome := by
  have hname := (h name slot).mp hslot
  rw [names, List.getElem?_map, Option.map_eq_some_iff] at hname
  obtain ⟨s, hs, _⟩ := hname
  simp [get?, hs]

theorem lookup?_insert_self (h : r.Indexed) (name : String) (operator : Operator σ) :
    (r.insert name operator).lookup? name = some operator := by
  rw [lookup?, resolve?_insert, if_pos rfl, Option.bind_some, slotFor, Registry.insert, get?]
  cases hname : r.resolve? name with
  | none => simp [size]
  | some slot =>
      have hslot := (List.getElem?_eq_some_iff.mp ((h name slot).mp hname)).1
      rw [names, List.length_map] at hslot
      simp [hslot]

/-- Registering under a name leaves the slots of all other names alone. -/
theorem get?_insert (h : r.Indexed) {name other : String} (hne : other ≠ name)
    (operator : Operator σ) {slot : Nat} (hslot : r.resolve? other = some slot) :
    (r.insert name operator).get? slot = r.get? slot := by
  have hlookup := h.lookup?_insert hne operator
  have hlater := (later_insert r name operator).resolve?_eq hslot
  rwa [lookup?, lookup?, hlater, hslot, Option.bind_some, Option.bind_some] at hlookup

end Indexed

theorem names_registerAll (id : RegistryId) (record : List (String × Operator σ)) :
    ((withId id).registerAll record).names = (record.map Prod.fst).eraseDups := by
  induction record using List.reverseRecOn with
  | nil => rfl
  | append_singleton record d ih =>
      have hindexed := (indexed_withId (σ := σ) id).registerAll record
      have hcontains := hindexed.contains_iff d.1
      rw [registerAll_concat, hindexed.names_insert, List.map_append, List.map_singleton,
        List.eraseDups_append, ← ih]
      rw [ih, List.mem_eraseDups] at hcontains
      by_cases hold : d.1 ∈ record.map Prod.fst
      · simp [hcontains.mpr hold, List.removeAll, hold]
      · have hnew := mt hcontains.mp hold
        simp [hnew, List.removeAll, hold, List.eraseDups_cons]

theorem lookup?_registerAll_withId (id : RegistryId) (record : List (String × Operator σ))
    (name : String) :
    ((withId id).registerAll record).lookup? name = record.reverse.lookup name := by
  induction record using List.reverseRecOn with
  | nil =>
      have hnone : (withId id : Registry σ).resolve? name = none := Std.TreeMap.getElem?_emptyc
      exact congrArg (Option.bind · (withId id : Registry σ).get?) hnone
  | append_singleton record d ih =>
      have hindexed := (indexed_withId (σ := σ) id).registerAll record
      rw [registerAll_concat, List.reverse_append, List.reverse_singleton, List.singleton_append,
        List.lookup_cons]
      by_cases hname : name = d.1
      · simp [hname, hindexed.lookup?_insert_self]
      · simp [beq_false_of_ne hname, hindexed.lookup?_insert hname, ih]

theorem size_registerAll (id : RegistryId) (record : List (String × Operator σ)) :
    ((withId id).registerAll record).size = (record.map Prod.fst).toFinset.card := by
  have hindexed := (indexed_withId (σ := σ) id).registerAll record
  have hnames : (record.map Prod.fst).toFinset = ((withId id).registerAll record).names.toFinset := by
    ext name
    simp [names_registerAll]
  have hlength : ((withId id).registerAll record).names.length =
      ((withId id).registerAll record).size := List.length_map _
  rw [hnames, List.toFinset_card_of_nodup hindexed.nodup_names, hlength]

/-- A new identity is all that a copy does not share with its original. -/
theorem registerAll_clone (id : RegistryId) (record : List (String × Operator σ))
    (r : Registry σ) :
    ({ r with id } : Registry σ).registerAll record = { r.registerAll record with id } := by
  have hinsert : ∀ (r : Registry σ) (name : String) (operator : Operator σ),
      ({ r with id } : Registry σ).insert name operator = { r.insert name operator with id } := by
    intro r name operator
    have hresolve : ({ r with id } : Registry σ).resolve? name = r.resolve? name := rfl
    rw [insert, insert, hresolve]
    cases r.resolve? name with
    | none => rfl
    | some slot => rfl
  induction record generalizing r with
  | nil => rfl
  | cons d record ih => exact (congrArg (registerAll · record) (hinsert r d.1 d.2)).trans (ih _)

end Registry

/-- The operator under its other spellings and then under its name. -/
def Definition.registrations (d : Definition σ) : List (String × Operator σ) :=
  (d.aliases ++ [d.name]).map fun name => (name, d.operator)

theorem Definition.mem_registrations {d : Definition σ} {name : String} {operator : Operator σ} :
    (name, operator) ∈ d.registrations ↔ name ∈ d.aliases ++ [d.name] ∧ d.operator = operator := by
  rw [registrations, List.mem_map]
  constructor
  · rintro ⟨other, hname, heq⟩
    obtain ⟨rfl, rfl⟩ := Prod.mk.inj heq
    exact ⟨hname, rfl⟩
  · rintro ⟨hname, rfl⟩
    exact ⟨name, hname, rfl⟩

namespace Registry

theorem registerAll_registrations (definitions : List (Definition σ)) (r : Registry σ) :
    definitions.foldl insertDefinition r =
      r.registerAll (definitions.flatMap Definition.registrations) := by
  induction definitions generalizing r with
  | nil => rfl
  | cons d definitions ih =>
      have hd : r.insertDefinition d = r.registerAll d.registrations := by
        rw [insertDefinition, registerAll, Definition.registrations, List.foldl_map]
        rfl
      rw [List.foldl_cons, ih, hd, List.flatMap_cons, registerAll_append]

/-- The registry is what the registrations, from first to last, say: its names are known by their slots
and its slots by their names, and for each name the last registration counts. -/
structure Records (r : Registry σ) (record : List (String × Operator σ)) : Prop where
  resolve?_iff : ∀ name slot, r.resolve? name = some slot ↔ r.names[slot]? = some name
  nodup : r.names.Nodup
  size_eq : r.size = (record.map Prod.fst).toFinset.card
  names_eq : r.names = (record.map Prod.fst).eraseDups
  lookup?_eq : ∀ name, r.lookup? name = record.reverse.lookup name

theorem records_registerAll (id : RegistryId) (record : List (String × Operator σ)) :
    ((withId id).registerAll record).Records record where
  resolve?_iff := (indexed_withId id).registerAll record
  nodup := ((indexed_withId id).registerAll record).nodup_names
  size_eq := size_registerAll id record
  names_eq := names_registerAll id record
  lookup?_eq := lookup?_registerAll_withId id record

end Registry

namespace RegistryAction

/-- What has been registered in each of the registries after the action. -/
def record (records : List (List (String × Operator σ))) :
    RegistryAction σ → List (List (String × Operator σ))
  | create definitions => records ++ [definitions.flatMap Definition.registrations]
  | clone i =>
      match records[i]? with
      | some registrations => records ++ [registrations]
      | none => records
  | register i name operator => records.modify i (· ++ [(name, operator)])

def records (actions : List (RegistryAction σ)) : List (List (String × Operator σ)) :=
  actions.foldl record []

end RegistryAction

namespace Fleet

/-- Every registry of the fleet comes from the registrations recorded for it. -/
def Recorded (f : Fleet σ) (records : List (List (String × Operator σ))) : Prop :=
  List.Forall₂ (fun r record => r = (Registry.withId r.id).registerAll record) f.registries records

theorem Recorded.act {f : Fleet σ} {records : List (List (String × Operator σ))}
    (h : f.Recorded records) (action : RegistryAction σ) :
    (f.act action).Recorded (action.record records) := by
  cases action with
  | create definitions =>
      refine List.rel_append h (.cons ?_ .nil)
      have hid := (makes_ofDefinitions definitions f.supply).id_eq
      rw [hid]
      exact Registry.registerAll_registrations definitions _
  | clone i =>
      rw [Fleet.act, RegistryAction.record]
      rcases forall₂_getElem? h i with ⟨hr, hrecord⟩ | ⟨r, record, hr, hrecord, hcopy⟩
      · rw [hr, hrecord]
        exact h
      · rw [hr, hrecord]
        refine List.rel_append h (.cons ?_ .nil)
        have hclone := congrArg (fun r : Registry σ => { r with id := ⟨f.supply.next⟩ }) hcopy
        exact hclone.trans (Registry.registerAll_clone _ record _).symm
  | register i name operator =>
      refine forall₂_modify h (fun r record hr => ?_) i
      rw [register_state, Registry.id_insert, Registry.registerAll_concat, ← hr]

theorem recorded_run (actions : List (RegistryAction σ)) :
    (initial.run actions : Fleet σ).Recorded (RegistryAction.records actions) := by
  have hrun : ∀ (f : Fleet σ) (records : List (List (String × Operator σ))), f.Recorded records →
      (f.run actions).Recorded (actions.foldl RegistryAction.record records) := by
    induction actions with
    | nil => exact fun _ _ h => h
    | cons action actions ih => exact fun f records h => ih _ _ (h.act action)
  exact hrun initial [] .nil

/-- A registry in which nothing is registered stays as it is. -/
theorem getElem?_run {f : Fleet σ} {i : Nat} {r : Registry σ} (hr : f.registries[i]? = some r)
    {actions : List (RegistryAction σ)}
    (helse : ∀ name operator, RegistryAction.register i name operator ∉ actions) :
    (f.run actions).registries[i]? = some r := by
  have hadd : ∀ (f : Fleet σ) (make : StateM IdSupply (Registry σ)), f.registries[i]? = some r →
      (f.add make).registries[i]? = some r := by
    intro f make hr
    have hlt := (List.getElem?_eq_some_iff.mp hr).1
    rw [add, List.getElem?_append_left hlt, hr]
  induction actions generalizing f with
  | nil => exact hr
  | cons action actions ih =>
      refine ih ?_ fun name operator h => helse name operator (List.mem_cons_of_mem _ h)
      cases action with
      | create definitions => exact hadd f _ hr
      | clone j =>
          rw [act]
          cases f.registries[j]? with
          | none => exact hr
          | some s => exact hadd f _ hr
      | register j name operator =>
          have hne : j ≠ i := by
            rintro rfl
            exact helse name operator List.mem_cons_self
          dsimp only [act]
          rw [List.getElem?_modify_ne _ _ hne, hr]

theorem clone_run {actions : List (RegistryAction σ)} {i : Nat} {r : Registry σ}
    (hr : (initial.run actions).registries[i]? = some r) :
    ∃ s : Registry σ,
      (initial.run (actions ++ [.clone i])).registries = (initial.run actions).registries ++ [s] ∧
      s.slots = r.slots ∧ s.index = r.index ∧
      ∀ t ∈ (initial.run actions).registries, s.id ≠ t.id := by
  refine ⟨{ r with id := ⟨(initial.run actions : Fleet σ).supply.next⟩ }, ?_, rfl, rfl, ?_⟩
  · rw [run, List.foldl_append, List.foldl_cons, List.foldl_nil]
    change (act (initial.run actions) (.clone i)).registries = _
    rw [act, hr]
    rfl
  · intro t ht heq
    have hgiven := (sound_initial.run actions).given t ht
    rw [← heq] at hgiven
    exact Nat.lt_irrefl _ hgiven

/-- What a registry has come to tells its whole history: it is what was registered in it, a slot once
given stays valid and with its name, registering under one name leaves all others alone, and a copy has
the same slots, an identity of its own, and from then on a life of its own. -/
theorem registry_history (before : List (RegistryAction σ)) {i : Nat} {r : Registry σ}
    (hr : (initial.run before).registries[i]? = some r) :
    (∃ record, (RegistryAction.records before)[i]? = some record ∧ r.Records record) ∧
    (∀ name slot, r.resolve? name = some slot → ∀ after, ∃ s : Registry σ,
      (initial.run (before ++ after)).registries[i]? = some s ∧
      s.resolve? name = some slot ∧ (s.get? slot).isSome) ∧
    (∀ name operator, let ran := Registry.register name operator r
      (∀ after, ∃ s : Registry σ,
        (initial.run (before ++ .register i name operator :: after)).registries[i]? = some s ∧
        s.resolve? name = some ran.result ∧ (s.get? ran.result).isSome) ∧
      ∀ other, other ≠ name → ran.state.lookup? other = r.lookup? other ∧
        ∀ slot, r.resolve? other = some slot → ran.state.get? slot = r.get? slot) ∧
    (∃ s : Registry σ,
      (initial.run (before ++ [.clone i])).registries = (initial.run before).registries ++ [s] ∧
      s.slots = r.slots ∧ s.index = r.index ∧
      ∀ t ∈ (initial.run before).registries, s.id ≠ t.id) ∧
    (∀ after, (∀ name operator, RegistryAction.register i name operator ∉ after) →
      (initial.run (before ++ after)).registries[i]? = some r) := by
  have hrun : ∀ before after : List (RegistryAction σ),
      initial.run (before ++ after) = (initial.run before).run after :=
    fun before after => List.foldl_append
  have hindexed : ∀ (actions : List (RegistryAction σ)) (s : Registry σ),
      (initial.run actions).registries[i]? = some s → s.Indexed :=
    fun actions s hs => (sound_initial.run actions).indexed s (List.mem_of_getElem? hs)
  -- A slot given at some time is valid at every later one.
  have hkeeps : ∀ (before after : List (RegistryAction σ)) (r : Registry σ) (name : String)
      (slot : Nat), (initial.run before).registries[i]? = some r → r.resolve? name = some slot →
      ∃ s : Registry σ, (initial.run (before ++ after)).registries[i]? = some s ∧
        s.resolve? name = some slot ∧ (s.get? slot).isSome := by
    intro before after r name slot hr hslot
    obtain ⟨s, hs, hlater⟩ := later_run (initial.run before) after hr
    rw [← hrun] at hs
    have hkept := hlater.resolve?_eq hslot
    exact ⟨s, hs, hkept, (hindexed _ s hs).isSome_get? hkept⟩
  refine ⟨?_, fun name slot hslot after => hkeeps before after r name slot hr hslot, ?_,
    clone_run hr, fun after helse => ?_⟩
  · rcases forall₂_getElem? (recorded_run before) i with ⟨hnone, _⟩ | ⟨s, record, hs, hrecord, heq⟩
    · cases hnone.symm.trans hr
    · obtain rfl : s = r := Option.some.inj (hs.symm.trans hr)
      refine ⟨record, hrecord, ?_⟩
      rw [heq]
      exact Registry.records_registerAll s.id record
  · intro name operator
    refine ⟨fun after => ?_, fun other hne => ⟨?_, fun slot hslot => ?_⟩⟩
    · have hafter : (initial.run (before ++ [.register i name operator])).registries[i]? =
          some (r.insert name operator) := by
        rw [hrun, run, List.foldl_cons, List.foldl_nil, act, List.getElem?_modify_eq, hr]
        rfl
      have hgiven : (r.insert name operator).resolve? name = some (r.slotFor name) := by
        rw [Registry.resolve?_insert, if_pos rfl]
      have hlist : before ++ .register i name operator :: after =
          (before ++ [.register i name operator]) ++ after := by simp
      rw [hlist]
      exact hkeeps _ after _ name _ hafter hgiven
    · exact (hindexed before r hr).lookup?_insert hne operator
    · exact (hindexed before r hr).get?_insert hne operator hslot
  · rw [hrun]
    exact getElem?_run hr helse

def nothing : Operator σ := .ofFunction fun _ _ => .ok .null

/-- A spelling that a later definition takes over, a name registered again, and a copy in between. -/
theorem registry_history_alias :
    let before : List (RegistryAction Unit) :=
      [.create [⟨"if", ["?:"], nothing⟩, ⟨"?:", [], Builtin.log⟩], .register 0 "not" nothing,
        .clone 0, .register 0 "?:" nothing]
    ∃ r s : Registry Unit,
      (initial.run before).registries[0]? = some r ∧ r.names = ["?:", "if", "not"] ∧
      (∃ record, (RegistryAction.records before)[0]? = some record ∧ r.Records record) ∧
      (initial.run (before ++ [.clone 0])).registries = (initial.run before).registries ++ [s] ∧
      s.slots = r.slots ∧ ∀ t ∈ (initial.run before).registries, s.id ≠ t.id := by
  intro before
  have hcase := registry_history before (i := 0) rfl
  obtain ⟨hrecord, _, _, ⟨s, hclone, hslots, _, hid⟩, _⟩ := hcase
  exact ⟨_, s, rfl, rfl, hrecord, hclone, hslots, hid⟩

end Fleet

end JsonRules
