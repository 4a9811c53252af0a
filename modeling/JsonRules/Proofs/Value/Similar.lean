import JsonRules.Proofs.Value.Reordered
import JsonRules.Value.Equality
import JsonRules.Value.Order
import JsonRules.Value.Path

/-!
# What does not depend on the order of members

Coercions, equalities and the order of values go through arrays in their order and into objects by key,
so they cannot tell similar values apart.  What is under a path in similar data is similar.
-/

namespace JsonRules.Value

variable {v w x y : Value}

namespace Similar

theorem truthy_eq (h : v.Similar w) : v.truthy = w.truthy := by
  cases h.parts with
  | array hitems => cases hitems <;> rfl
  | _ => rfl

theorem isNull_eq (h : v.Similar w) : v.isNull = w.isNull := by
  cases h.parts <;> rfl

theorem pathOf_eq (h : v.Similar w) (operator : String) : v.pathOf operator = w.pathOf operator := by
  cases h.parts <;> rfl

theorem toNumber_eq (h : v.Similar w) : v.toNumber = w.toNumber := by
  induction v generalizing w with
  | array items ih =>
      cases h.parts with
      | array hitems =>
          cases hitems with
          | nil => rfl
          | @cons v w items others hvw hrest =>
              cases hrest with
              | nil =>
                  rw [toNumber, toNumber]
                  exact ih v (List.mem_singleton_self v) hvw
              | cons _ _ => rfl
  | _ =>
      cases h.parts
      rfl

end Similar

theorem elementTexts_eq_map (items : List Value) :
    elementTexts items = items.map fun v => if v.isNull then "" else v.toText :=
  eq_map_of_cons rfl (fun _ _ => rfl) items

theorem Similar.toText_eq (h : v.Similar w) : v.toText = w.toText := by
  induction v generalizing w with
  | array items ih =>
      cases h.parts with
      | array hitems =>
          rw [toText, toText, elementTexts_eq_map, elementTexts_eq_map]
          refine congrArg _ (map_eq_of_forall₂ hitems fun v hv w hvw => ?_)
          rw [hvw.isNull_eq, ih v hv hvw]
  | _ =>
      cases h.parts
      rfl

/-! ### Equalities -/

theorem all_zip_eq {f : Value → Value → Bool} {items others vs ws : List Value}
    (hitems : List.Forall₂ Similar items others) (hvs : List.Forall₂ Similar vs ws)
    (hf : ∀ v ∈ items, ∀ {w x y : Value}, v.Similar w → x.Similar y → f v x = f w y) :
    ((items.zip vs).all fun p => f p.1 p.2) = (others.zip ws).all fun p => f p.1 p.2 := by
  induction hitems generalizing vs ws with
  | nil => rfl
  | @cons v w items others hvw _ ih =>
      cases hvs with
      | nil => rfl
      | cons hxy hvs =>
          simp only [List.zip_cons_cons, List.all_cons, hf v List.mem_cons_self hvw hxy,
            ih hvs fun u hu => hf u (List.mem_cons_of_mem v hu)]

section Agree

variable (numbers : Number → Number → Bool)

theorem agreeMembers_eq_all (members others : Entries Value) :
    agreeMembers numbers members others =
      members.all fun entry => (others.lookup entry.1).any (agree numbers entry.2) := by
  induction members with
  | nil => rfl
  | cons entry members ih => rw [agreeMembers, ih, List.all_cons]

theorem agreeMembers_iff {members others : Entries Value} :
    agreeMembers numbers members others = true ↔ ∀ key v, (key, v) ∈ members →
      ∃ w, others.lookup key = some w ∧ agree numbers v w = true := by
  simp [agreeMembers_eq_all, Option.any_eq_true]

theorem agreeMembers_eq {members others ms os : Entries Value}
    (hmembers : members.Related Similar others) (hms : ms.Related Similar os)
    (hagree : ∀ key v, (key, v) ∈ members → ∀ {w x y : Value}, v.Similar w → x.Similar y →
      agree numbers v x = agree numbers w y) :
    agreeMembers numbers members ms = agreeMembers numbers others os := by
  rw [Bool.eq_iff_iff, agreeMembers_iff, agreeMembers_iff]
  constructor
  · intro h key w hw
    obtain ⟨v, hv, hvw⟩ := hmembers.exists_left key w hw
    obtain ⟨x, hx, hvx⟩ := h key v hv
    obtain ⟨y, hy, hxy⟩ := hms.lookup_right hx
    exact ⟨y, hy, (hagree key v hv hvw hxy).symm.trans hvx⟩
  · intro h key v hv
    obtain ⟨w, hw, hvw⟩ := hmembers.exists_right key v hv
    obtain ⟨y, hy, hwy⟩ := h key w hw
    obtain ⟨x, hx, hxy⟩ := hms.lookup_left hy
    exact ⟨x, hx, (hagree key v hv hvw hxy).trans hwy⟩

theorem agreeItems_eq_all (items others : List Value) :
    agreeItems numbers items others = (items.zip others).all fun p => agree numbers p.1 p.2 := by
  induction items generalizing others with
  | nil => rfl
  | cons v items ih =>
      cases others with
      | nil => rfl
      | cons w others => rw [agreeItems, ih, List.zip_cons_cons, List.all_cons]

theorem Similar.agree_eq (hvw : v.Similar w) (hxy : x.Similar y) :
    agree numbers v x = agree numbers w y := by
  induction v generalizing w x y with
  | array items ih =>
      cases hvw.parts with
      | array hitems =>
          cases hxy.parts with
          | array hvs =>
              rw [agree, agree, hitems.length_eq, hvs.length_eq, agreeItems_eq_all,
                agreeItems_eq_all, all_zip_eq hitems hvs fun v hv => ih v hv]
          | _ => rfl
  | object members ih =>
      cases hvw.parts with
      | object hmembers =>
          cases hxy.parts with
          | object hms =>
              rw [agree, agree, hmembers.length_eq, hms.length_eq,
                agreeMembers_eq numbers hmembers hms fun key v hv => ih key v hv]
          | _ => rfl
  | _ =>
      cases hvw.parts
      cases hxy.parts <;> rfl

end Agree

theorem Similar.strictEq_eq (hvw : v.Similar w) (hxy : x.Similar y) :
    strictEq v x = strictEq w y := hvw.agree_eq Number.eq hxy

theorem looseEqItems_eq_all (items others : List Value) :
    looseEqItems items others = (items.zip others).all fun p => looseEq p.1 p.2 := by
  induction items generalizing others with
  | nil => rfl
  | cons v items ih =>
      cases others with
      | nil => rfl
      | cons w others => rw [looseEqItems, ih, List.zip_cons_cons, List.all_cons]

theorem Similar.looseEq_eq (hvw : v.Similar w) (hxy : x.Similar y) :
    looseEq v x = looseEq w y := by
  induction v generalizing w x y with
  | array items ih =>
      cases hvw.parts with
      | array hitems =>
          cases hxy.parts with
          | array hvs =>
              rw [looseEq, looseEq, hitems.length_eq, hvs.length_eq, looseEqItems_eq_all,
                looseEqItems_eq_all, all_zip_eq hitems hvs fun v hv => ih v hv]
          | _ => rfl
  | object members =>
      have hstrict := hvw.strictEq_eq hxy
      cases hvw.parts with
      | object hmembers =>
          cases hxy.parts with
          | object hms => exact hstrict
          | _ => rfl
  | _ =>
      cases hvw.parts
      cases hxy.parts <;> rfl

/-! ### Order -/

theorem Similar.compare?_eq (hvw : v.Similar w) (hxy : x.Similar y) :
    v.compare? x = w.compare? y := by
  have hleft := hvw.toNumber_eq
  have hright := hxy.toNumber_eq
  cases hvw.parts <;> cases hxy.parts <;> simp only [compare?, hleft, hright]

/-! ### Paths -/

namespace Similar

theorem step? (h : v.Similar w) (step : String) :
    Option.Rel Similar (v.step? step) (w.step? step) := by
  cases h.parts with
  | array hitems =>
      rw [Value.step?, Value.step?]
      cases Path.position? step with
      | none => exact .none
      | some i => exact rel_getElem? hitems i
  | object hmembers => exact hmembers.lookup step
  | _ => exact .none

theorem descend? (h : v.Similar w) (steps : List String) :
    Option.Rel Similar (v.descend? steps) (w.descend? steps) := by
  induction steps generalizing v w with
  | nil => exact .some h
  | cons step steps ih => exact rel_bind (h.step? step) fun v w hvw => ih hvw

theorem resolve? (h : v.Similar w) (path : String) :
    Option.Rel Similar (v.resolve? path) (w.resolve? path) := by
  rw [Value.resolve?, Value.resolve?]
  split
  · exact .some h
  · exact h.descend? _

theorem isMissing_eq (h : v.Similar w) (path : String) : v.isMissing path = w.isMissing path := by
  have hresolve := h.resolve? path
  rw [isMissing, isMissing]
  generalize v.resolve? path = found, w.resolve? path = other at hresolve
  cases hresolve with
  | some h => exact h.isNull_eq
  | none => rfl

end Similar

end JsonRules.Value
