import JsonRules.Proofs.Number.Order
import JsonRules.Proofs.Value.Similar
import JsonRules.Proofs.Value.Within
import Mathlib.Data.List.Perm.Subperm

/-!
# Laws of the equalities

Strict equality is equality of the parts and identity is an equivalence; the two differ only in
not-a-number, which strict equality does not even find equal to itself.  Loose equality takes in strict
equality and is symmetric.  That two objects may change sides rests on their keys: as many distinct
keys, all of them found in the other object, are all the keys that the other one has.
-/

namespace JsonRules.Value

variable {f g : Number → Number → Bool} {u v w : Value}

/-! ### Agreement part by part -/

/-- Two values that agree in their parts, one layer of them taken off. -/
inductive Agreement (f : Number → Number → Bool) : Value → Value → Prop
  | null : Agreement f null null
  | bool (b : Bool) : Agreement f (bool b) (bool b)
  | number {x y : Number} (h : f x y = true) : Agreement f (number x) (number y)
  | string (s : String) : Agreement f (string s) (string s)
  | array {items others : List Value} (h : List.Forall₂ (fun v w => agree f v w = true) items others) :
      Agreement f (array items) (array others)
  | object {members others : Entries Value} (hlength : members.length = others.length)
      (h : ∀ key v, (key, v) ∈ members → ∃ w, others.lookup key = some w ∧ agree f v w = true) :
      Agreement f (object members) (object others)

theorem agree_array_iff {items others : List Value} :
    agree f (array items) (array others) = true ↔
      List.Forall₂ (fun v w => agree f v w = true) items others := by
  rw [agree, agreeItems_eq_all, Bool.and_eq_true, beq_iff_eq, List.all_eq_true, List.forall₂_iff_zip]
  exact and_congr_right fun _ => ⟨fun h v w hvw => h (v, w) hvw, fun h p hp => h hp⟩

theorem agree_object_iff {members others : Entries Value} :
    agree f (object members) (object others) = true ↔
      members.length = others.length ∧ ∀ key v, (key, v) ∈ members →
        ∃ w, others.lookup key = some w ∧ agree f v w = true := by
  rw [agree, Bool.and_eq_true, beq_iff_eq, agreeMembers_iff]

theorem agree_iff : agree f v w = true ↔ Agreement f v w := by
  constructor
  · intro h
    cases v with
    | null =>
        cases w with
        | null => exact .null
        | _ => cases h
    | bool b =>
        cases w with
        | bool c => exact beq_iff_eq.mp h ▸ .bool b
        | _ => cases h
    | number x =>
        cases w with
        | number y => exact .number h
        | _ => cases h
    | string s =>
        cases w with
        | string t => exact beq_iff_eq.mp h ▸ .string s
        | _ => cases h
    | array items =>
        cases w with
        | array others => exact .array (agree_array_iff.mp h)
        | _ => cases h
    | object members =>
        cases w with
        | object others => exact .object (agree_object_iff.mp h).1 (agree_object_iff.mp h).2
        | _ => cases h
  · intro h
    cases h with
    | null => rfl
    | bool b => exact beq_self_eq_true b
    | number h => exact h
    | string s => exact beq_self_eq_true s
    | array h => exact agree_array_iff.mpr h
    | object hlength h => exact agree_object_iff.mpr ⟨hlength, h⟩

/-- Members that all find an agreeing one in an object of the same size leave none of it over. -/
theorem exists_of_agree {members others : Entries Value} (hmembers : members.Distinct)
    (hothers : others.Distinct) (hlength : members.length = others.length)
    (h : ∀ key v, (key, v) ∈ members → ∃ w, others.lookup key = some w ∧ agree f v w = true)
    {key : String} {w : Value} (hw : (key, w) ∈ others) :
    ∃ v, members.lookup key = some v ∧ agree f v w = true := by
  have hsubset : members.keys ⊆ others.keys := by
    intro key hkey
    obtain ⟨⟨_, v⟩, hv, rfl⟩ := List.mem_map.mp hkey
    obtain ⟨w, hw, _⟩ := h _ v hv
    exact List.mem_map.mpr ⟨_, (Entries.lookup_eq_some_iff hothers).mp hw, rfl⟩
  have hperm : members.keys.Perm others.keys := by
    have hkeys : others.keys.length = members.keys.length := by
      rw [Entries.keys, Entries.keys, List.length_map, List.length_map, hlength]
    exact (List.subperm_of_subset hmembers hsubset).perm_of_length_le (Nat.le_of_eq hkeys)
  obtain ⟨⟨_, v⟩, hv, rfl⟩ := List.mem_map.mp (hperm.mem_iff.mpr (List.mem_map.mpr ⟨_, hw, rfl⟩))
  obtain ⟨w', hw', hvw⟩ := h _ v hv
  obtain rfl := Option.some.inj (hw'.symm.trans ((Entries.lookup_eq_some_iff hothers).mpr hw))
  exact ⟨v, (Entries.lookup_eq_some_iff hmembers).mpr hv, hvw⟩

/-! ### Laws of agreement -/

theorem agree_self_iff (hv : v.Keyed) :
    agree f v v = true ↔ v.AllNumbers fun x => f x x = true := by
  induction v with
  | null => exact iff_of_true rfl .null
  | bool b => exact iff_of_true (beq_self_eq_true b) (.bool b)
  | number x => exact (allNumbers_number_iff (P := fun x => f x x = true)).symm
  | string s => exact iff_of_true (beq_self_eq_true s) (.string s)
  | array items ih =>
      have hitems := keyed_array_iff.mp hv
      rw [agree_array_iff, List.forall₂_same, allNumbers_array_iff]
      exact forall₂_congr fun v hv => ih v hv (hitems v hv)
  | object members ih =>
      obtain ⟨hdistinct, hmembers⟩ := keyed_object_iff.mp hv
      rw [agree_object_iff, allNumbers_object_iff]
      refine (and_iff_right rfl).trans (forall₃_congr fun key v hv => ?_)
      rw [(Entries.lookup_eq_some_iff hdistinct).mpr hv, ← ih key v hv (hmembers key v hv)]
      exact ⟨fun ⟨_, hw, h⟩ => Option.some.inj hw ▸ h, fun h => ⟨v, rfl, h⟩⟩

theorem agree_symm (hf : ∀ x y, f x y = true → f y x = true) (hv : v.Keyed) (hw : w.Keyed)
    (h : agree f v w = true) : agree f w v = true := by
  induction v generalizing w with
  | array items ih =>
      cases agree_iff.mp h with
      | array hagree =>
          have hitems := keyed_array_iff.mp hv
          have hothers := keyed_array_iff.mp hw
          refine agree_array_iff.mpr (List.Forall₂.flip (forall₂_imp_of_mem hagree ?_))
          exact fun v hv w hw hvw => ih v hv (hitems v hv) (hothers w hw) hvw
  | object members ih =>
      cases agree_iff.mp h with
      | object hlength hagree =>
          obtain ⟨hdistinct, hmembers⟩ := keyed_object_iff.mp hv
          obtain ⟨hunique, hothers⟩ := keyed_object_iff.mp hw
          refine agree_object_iff.mpr ⟨hlength.symm, fun key w hw => ?_⟩
          obtain ⟨v, hv, hvw⟩ := exists_of_agree hdistinct hunique hlength hagree hw
          have hmem := (Entries.lookup_eq_some_iff hdistinct).mp hv
          exact ⟨v, hv, ih key v hmem (hmembers key v hmem) (hothers key w hw) hvw⟩
  | number x =>
      cases agree_iff.mp h with
      | number hxy => exact hf _ _ hxy
  | _ =>
      cases agree_iff.mp h
      exact h

theorem agree_trans (hf : ∀ x y z, f x y = true → f y z = true → f x z = true) (hv : v.Keyed)
    (h : agree f u v = true) (h' : agree f v w = true) : agree f u w = true := by
  induction u generalizing v w with
  | array items ih =>
      cases agree_iff.mp h with
      | array hitems =>
          cases agree_iff.mp h' with
          | array hothers =>
              have hkeyed := keyed_array_iff.mp hv
              have hstep := forall₂_imp_of_mem hitems fun u hu v hv huv => fun w hvw =>
                ih u hu (w := w) (hkeyed v hv) huv hvw
              exact agree_array_iff.mpr (forall₂_trans (fun _ _ w h h' => h w h') hstep hothers)
  | object members ih =>
      cases agree_iff.mp h with
      | object hlength hmembers =>
          cases agree_iff.mp h' with
          | object hlength' hothers =>
              obtain ⟨hdistinct, hkeyed⟩ := keyed_object_iff.mp hv
              refine agree_object_iff.mpr ⟨hlength.trans hlength', fun key u hu => ?_⟩
              obtain ⟨v, hv, huv⟩ := hmembers key u hu
              have hmem := (Entries.lookup_eq_some_iff hdistinct).mp hv
              obtain ⟨w, hw, hvw⟩ := hothers key v hmem
              exact ⟨w, hw, ih key u hu (hkeyed key v hmem) huv hvw⟩
  | number x =>
      cases agree_iff.mp h with
      | number hxy =>
          cases agree_iff.mp h' with
          | number hyz => exact hf _ _ _ hxy hyz
  | _ =>
      cases agree_iff.mp h
      exact h'

theorem agree_imp {P : Number → Prop} (hfg : ∀ x y, P x → f x y = true → g x y = true)
    (hv : v.AllNumbers P) (h : agree f v w = true) : agree g v w = true := by
  induction v generalizing w with
  | array items ih =>
      cases agree_iff.mp h with
      | array hagree =>
          have hitems := allNumbers_array_iff.mp hv
          exact agree_array_iff.mpr (forall₂_imp_of_mem hagree fun v hv w _ hvw =>
            ih v hv (hitems v hv) hvw)
  | object members ih =>
      cases agree_iff.mp h with
      | object hlength hagree =>
          have hmembers := allNumbers_object_iff.mp hv
          refine agree_object_iff.mpr ⟨hlength, fun key v hv => ?_⟩
          obtain ⟨w, hw, hvw⟩ := hagree key v hv
          exact ⟨w, hw, ih key v hv (hmembers key v hv) hvw⟩
  | number x =>
      cases agree_iff.mp h with
      | number hxy => exact hfg _ _ (allNumbers_number_iff.mp hv) hxy
  | _ =>
      cases agree_iff.mp h
      exact h

/-! ### Equality of the parts -/

theorem beqItems_iff {items others : List Value} :
    beqItems items others = true ↔ List.Forall₂ (fun v w => (v == w) = true) items others := by
  induction items generalizing others with
  | nil => cases others <;> simp [beqItems]
  | cons v items ih =>
      cases others with
      | nil => simp [beqItems]
      | cons w others =>
          rw [beqItems, Bool.and_eq_true, ih, List.forall₂_cons]
          rfl

theorem beqMembers_eq_all (members others : Entries Value) :
    beqMembers members others =
      members.all fun entry => (others.lookup entry.1).any (entry.2 == ·) := by
  induction members with
  | nil => rfl
  | cons entry members ih =>
      obtain ⟨key, v⟩ := entry
      rw [beqMembers, ih, List.all_cons]
      cases others.lookup key with
      | none => rfl
      | some w => rfl

theorem beqMembers_iff {members others : Entries Value} :
    beqMembers members others = true ↔ ∀ key v, (key, v) ∈ members →
      ∃ w, others.lookup key = some w ∧ (v == w) = true := by
  simp [beqMembers_eq_all, Option.any_eq_true]

theorem strictEq_eq_beq (v w : Value) : strictEq v w = (v == w) := by
  induction v generalizing w with
  | array items ih =>
      cases w with
      | array others =>
          rw [Bool.eq_iff_iff, strictEq, agree_array_iff]
          refine Iff.trans ⟨fun h => ?_, fun h => ?_⟩ beqItems_iff.symm
          · exact forall₂_imp_of_mem h fun v hv w _ hvw => (ih v hv w).symm.trans hvw
          · exact forall₂_imp_of_mem h fun v hv w _ hvw => (ih v hv w).trans hvw
      | _ => rfl
  | object members ih =>
      cases w with
      | object others =>
          have hmembers : agreeMembers Number.eq members others = beqMembers members others := by
            rw [Bool.eq_iff_iff, agreeMembers_iff, beqMembers_iff]
            refine forall₃_congr fun key v hv => exists_congr fun w => ?_
            rw [← ih key v hv w]
            rfl
          exact congrArg (members.length == others.length && ·) hmembers
      | _ => rfl
  | _ => cases w <;> rfl

/-! ### Loose equality -/

theorem looseEq_array_iff {items others : List Value} :
    looseEq (array items) (array others) = true ↔
      List.Forall₂ (fun v w => looseEq v w = true) items others := by
  rw [looseEq, looseEqItems_eq_all, Bool.and_eq_true, beq_iff_eq, List.all_eq_true,
    List.forall₂_iff_zip]
  exact and_congr_right fun _ => ⟨fun h v w hvw => h (v, w) hvw, fun h p hp => h hp⟩

theorem looseEq_of_strictEq (h : strictEq v w = true) : looseEq v w = true := by
  induction v generalizing w with
  | array items ih =>
      cases agree_iff.mp h with
      | array hagree =>
          exact looseEq_array_iff.mpr (forall₂_imp_of_mem hagree fun v hv w _ hvw => ih v hv hvw)
  | _ =>
      cases agree_iff.mp h
      exact h

theorem strictEq_self_iff (hv : v.Keyed) : strictEq v v = true ↔ v.AllNumbers (· ≠ .nan) := by
  rw [strictEq, agree_self_iff hv]
  exact ⟨.mono fun _ => Number.eq_self_iff.mp, .mono fun _ => Number.eq_self_iff.mpr⟩

theorem looseEq_self_iff (hv : v.Keyed) : looseEq v v = true ↔ v.AllNumbers (· ≠ .nan) := by
  induction v with
  | array items ih =>
      have hitems := keyed_array_iff.mp hv
      rw [looseEq_array_iff, List.forall₂_same, allNumbers_array_iff]
      exact forall₂_congr fun v hv => ih v hv (hitems v hv)
  | _ => exact strictEq_self_iff hv

theorem looseEq_symm (hv : v.Keyed) (hw : w.Keyed) (h : looseEq v w = true) :
    looseEq w v = true := by
  induction v generalizing w with
  | null =>
      cases w with
      | null => rfl
      | _ => cases h
  | bool b =>
      cases w with
      | bool c => exact (Bool.beq_comm).trans h
      | number y => exact (Bool.beq_comm).trans h
      | string t => exact (Bool.beq_comm).trans h
      | _ => cases h
  | number x =>
      cases w with
      | bool c => exact (Bool.beq_comm).trans h
      | number y => exact Number.eq_symm h
      | string t => exact Number.eq_symm h
      | _ => cases h
  | string s =>
      cases w with
      | bool c => exact (Bool.beq_comm).trans h
      | number y => exact Number.eq_symm h
      | string t => exact (Bool.beq_comm).trans h
      | _ => cases h
  | array items ih =>
      cases w with
      | array others =>
          have hitems := keyed_array_iff.mp hv
          have hothers := keyed_array_iff.mp hw
          refine looseEq_array_iff.mpr (List.Forall₂.flip (forall₂_imp_of_mem
            (looseEq_array_iff.mp h) ?_))
          exact fun v hv w hw hvw => ih v hv (hitems v hv) (hothers w hw) hvw
      | _ => cases h
  | object members =>
      cases w with
      | object others => exact agree_symm (fun _ _ => Number.eq_symm) hv hw h
      | _ => cases h

/-- The laws of the equalities.  Strict equality is equality of the parts; it is symmetric and
transitive, and a value equals itself unless not-a-number is somewhere in it.  Identity is an
equivalence that takes in strict equality, and without not-a-number it is no more than that.  Loose
equality is symmetric, takes in strict equality and finds the same values equal to themselves. -/
theorem equality_laws (hu : u.Keyed) (hv : v.Keyed) :
    (strictEq u v = (u == v) ∧ strictEq u v = strictEq v u ∧
      (strictEq u v = true → strictEq v w = true → strictEq u w = true) ∧
      (strictEq u u = true ↔ ¬(number .nan).Within u)) ∧
    (same u u = true ∧ same u v = same v u ∧
      (same u v = true → same v w = true → same u w = true) ∧
      (strictEq u v = true → same u v = true) ∧
      (same u v = true → ¬(number .nan).Within u → strictEq u v = true)) ∧
    looseEq u v = looseEq v u ∧ (strictEq u v = true → looseEq u v = true) ∧
      (looseEq u u = true ↔ ¬(number .nan).Within u) := by
  refine ⟨⟨strictEq_eq_beq u v, ?_, ?_, ?_⟩, ⟨?_, ?_, ?_, ?_, ?_⟩, ?_, looseEq_of_strictEq, ?_⟩
  · have hsymm : ∀ x y : Number, x.eq y = true → y.eq x = true := fun _ _ => Number.eq_symm
    exact Bool.eq_iff_iff.mpr ⟨agree_symm hsymm hu hv, agree_symm hsymm hv hu⟩
  · exact agree_trans (fun _ _ _ => Number.eq_trans) hv
  · exact (strictEq_self_iff hu).trans allNumbers_ne_iff
  · exact (agree_self_iff hu).mpr fun x _ => Number.same_refl x
  · have hsymm : ∀ x y : Number, x.same y = true → y.same x = true := fun _ _ => Number.same_symm
    exact Bool.eq_iff_iff.mpr ⟨agree_symm hsymm hu hv, agree_symm hsymm hv hu⟩
  · exact agree_trans (fun _ _ _ => Number.same_trans) hv
  · have hmono : ∀ x y : Number, True → x.eq y = true → x.same y = true :=
      fun _ _ _ h => Number.same_iff.mpr (.inl h)
    exact agree_imp hmono fun _ _ => trivial
  · intro hsame hnan
    refine agree_imp (fun x y hx hxy => ?_) (allNumbers_ne_iff.mpr hnan) hsame
    exact (Number.same_iff.mp hxy).resolve_right fun h => hx h.1
  · exact Bool.eq_iff_iff.mpr ⟨looseEq_symm hu hv, looseEq_symm hv hu⟩
  · exact (looseEq_self_iff hu).trans allNumbers_ne_iff

/-- The members of an object stand in another order, one of them holds not-a-number and the other a zero
of either sign. -/
theorem equality_laws_reordered :
    ∃ u v : Value, u.Keyed ∧ v.Keyed ∧ same u v = true ∧ same v u = true ∧
      strictEq u v = strictEq v u ∧ strictEq u u = false ∧ looseEq u u = false := by
  have hu : (array [object [("x", array [number .nan]), ("y", number (.finite true .zero))]]).Keyed := by
    simp [keyed_array_iff, keyed_object_iff, Entries.Distinct, Entries.keys, or_imp, forall_and,
      Keyed.number]
  have hv : (array [object [("y", number .zero), ("x", array [number .nan])]]).Keyed := by
    simp [keyed_array_iff, keyed_object_iff, Entries.Distinct, Entries.keys, or_imp, forall_and,
      Keyed.number]
  have hnan : (number .nan).Within
      (array [object [("x", array [number .nan]), ("y", number (.finite true .zero))]]) :=
    .element List.mem_cons_self (.member List.mem_cons_self (.element List.mem_cons_self .self))
  obtain ⟨⟨_, hstrict, _, hself⟩, ⟨_, hsame, _⟩, _, _, hloose⟩ := equality_laws (w := null) hu hv
  refine ⟨_, _, hu, hv, by decide, hsame.symm.trans (by decide), hstrict, ?_, ?_⟩
  · exact Bool.eq_false_iff.mpr fun h => hself.mp h hnan
  · exact Bool.eq_false_iff.mpr fun h => hloose.mp h hnan

end JsonRules.Value
