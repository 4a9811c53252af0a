import Mathlib.Data.Option.NAry
import JsonRules.Builtin.Test
import JsonRules.Proofs.Number.Decimal
import JsonRules.Proofs.Number.Order
import JsonRules.Proofs.Value.Equality

/-!
# Laws of the order

Any two values compare as their ranks do.  The ranks of two strings are the strings themselves, those of
any other two values the places of the numbers that they coerce to.  So comparison may be reversed, and
it is transitive among values that all have ranks of one kind: among strings, and as long as there is at
most one string among the values.
-/

namespace JsonRules

namespace Value

variable {u v w : Value}

def isString (v : Value) : Bool := v.asString?.isSome

/-- The place of the number that a value coerces to. -/
def place? (v : Value) : Option Int := v.toNumber.place?

/-- The values compare as their ranks do, and not at all if one of them has no rank. -/
def ComparesBy {κ : Type} [Ord κ] (rank? : Value → Option κ) (v w : Value) : Prop :=
  v.compare? w = Option.map₂ compare (rank? v) (rank? w)

theorem comparesBy_asString? (hv : v.isString = true) (hw : w.isString = true) :
    ComparesBy asString? v w := by
  cases v with
  | string s =>
      cases w with
      | string t => rfl
      | _ => cases hw
  | _ => cases hv

theorem compare?_eq_toNumber (h : ¬(v.isString = true ∧ w.isString = true)) :
    v.compare? w = v.toNumber.compare? w.toNumber := by
  cases v with
  | string s =>
      cases w with
      | string t => exact absurd ⟨rfl, rfl⟩ h
      | _ => rfl
  | _ => rfl

theorem comparesBy_place? (h : ¬(v.isString = true ∧ w.isString = true)) :
    ComparesBy place? v w :=
  (compare?_eq_toNumber h).trans (Number.compare?_eq_place? v.toNumber w.toNumber)

theorem place?_eq_none_iff : v.place? = none ↔ v.toNumber = .nan := Number.place?_eq_none_iff

theorem compare?_eq_none_iff :
    v.compare? w = none ↔
      ¬(v.isString = true ∧ w.isString = true) ∧ (v.toNumber = .nan ∨ w.toNumber = .nan) := by
  by_cases h : v.isString = true ∧ w.isString = true
  · rw [comparesBy_asString? h.1 h.2, Option.map₂_eq_none_iff]
    have hv : v.asString? ≠ none := Option.isSome_iff_ne_none.mp h.1
    have hw : w.asString? ≠ none := Option.isSome_iff_ne_none.mp h.2
    simp [h, hv, hw]
  · rw [comparesBy_place? h, Option.map₂_eq_none_iff, place?_eq_none_iff, place?_eq_none_iff]
    exact (and_iff_right h).symm

section ComparesBy

variable {κ : Type} [Ord κ] [Std.TransOrd κ] {rank? : Value → Option κ} {o o' : Ordering}

theorem ComparesBy.swap (h : ComparesBy rank? v w) (h' : ComparesBy rank? w v) :
    w.compare? v = (v.compare? w).map Ordering.swap := by
  rw [h, h', Option.map_map₂]
  exact Option.map₂_comm fun a b => Std.OrientedCmp.eq_swap

/-- Two steps up lead up, and strictly so if one of them is strict. -/
theorem ComparesBy.trans (huv : ComparesBy rank? u v) (hvw : ComparesBy rank? v w)
    (huw : ComparesBy rank? u w) (h : u.compare? v = some o) (h' : v.compare? w = some o')
    (ho : o.isLE = true) (ho' : o'.isLE = true) : u.compare? w = some (o.then o') := by
  rw [huv] at h
  rw [hvw] at h'
  obtain ⟨a, b, ha, hb, hab⟩ := Option.map₂_eq_some_iff.mp h
  obtain ⟨b', c, hb', hc, hbc⟩ := Option.map₂_eq_some_iff.mp h'
  obtain rfl := Option.some.inj (hb.symm.trans hb')
  have hac : compare a c = o.then o' := by
    subst hbc
    cases o with
    | lt => exact Std.TransCmp.lt_of_lt_of_isLE hab ho'
    | eq => exact Std.TransCmp.congr_left hab
    | gt => cases ho
  rw [huw]
  exact Option.map₂_eq_some_iff.mpr ⟨a, c, ha, hc, hac⟩

end ComparesBy

theorem compare?_swap (v w : Value) : w.compare? v = (v.compare? w).map Ordering.swap := by
  by_cases h : v.isString = true ∧ w.isString = true
  · exact (comparesBy_asString? h.1 h.2).swap (comparesBy_asString? h.2 h.1)
  · exact (comparesBy_place? h).swap (comparesBy_place? fun h' => h h'.symm)

theorem lt_iff : v.lt w = true ↔ v.compare? w = some .lt := beq_iff_eq

theorem gt_iff : v.gt w = true ↔ v.compare? w = some .gt := beq_iff_eq

theorem le_iff : v.le w = true ↔ ∃ o, v.compare? w = some o ∧ o.isLE = true := by
  rw [le]
  cases v.compare? w with
  | none => simp
  | some o => cases o <;> simp

theorem le_of_lt (h : v.lt w = true) : v.le w = true := le_iff.mpr ⟨.lt, lt_iff.mp h, rfl⟩

theorem lt_eq_gt (v w : Value) : v.lt w = w.gt v := by
  rw [lt, gt, compare?_swap v w]
  cases v.compare? w with
  | none => rfl
  | some o => cases o <;> rfl

theorem le_eq_ge (v w : Value) : v.le w = w.ge v := by
  rw [le, ge, compare?_swap v w]
  cases v.compare? w with
  | none => rfl
  | some o => cases o <;> rfl

/-- All are strings, or at most one is. -/
def InOneOrder (values : List Value) : Prop :=
  (∀ v ∈ values, v.isString = true) ∨ values.countP isString ≤ 1

theorem pairwise_of_countP {values : List Value} (h : values.countP isString ≤ 1) :
    values.Pairwise fun v w => ¬(v.isString = true ∧ w.isString = true) := by
  induction values with
  | nil => exact .nil
  | cons v rest ih =>
      rw [List.countP_cons] at h
      refine .cons (fun w hw hvw => ?_) (ih (by omega))
      have hrest : 0 < rest.countP isString := List.countP_pos_iff.mpr ⟨w, hw, hvw.2⟩
      rw [if_pos hvw.1] at h
      omega

/-- Then there are ranks of one kind by which all of them compare. -/
theorem InOneOrder.exists_rank {values : List Value} (h : InOneOrder values) :
    ∃ (κ : Type) (_ : Ord κ) (_ : Std.TransOrd κ) (rank? : Value → Option κ),
      values.Pairwise (ComparesBy rank?) := by
  rcases h with hstrings | hcount
  · refine ⟨String, _, inferInstance, asString?, List.pairwise_of_forall_mem_list ?_⟩
    exact fun v hv w hw => comparesBy_asString? (hstrings v hv) (hstrings w hw)
  · exact ⟨Int, _, inferInstance, place?, (pairwise_of_countP hcount).imp comparesBy_place?⟩

namespace InOneOrder

variable (h : InOneOrder [u, v, w])

include h

theorem trans {o o' : Ordering} (huv : u.compare? v = some o) (hvw : v.compare? w = some o')
    (ho : o.isLE = true) (ho' : o'.isLE = true) : u.compare? w = some (o.then o') := by
  obtain ⟨κ, _, _, rank?, hranks⟩ := h.exists_rank
  simp only [List.pairwise_cons, List.mem_cons, List.not_mem_nil, or_false] at hranks
  obtain ⟨hu, hv, _⟩ := hranks
  exact (hu v (.inl rfl)).trans (hv w rfl) (hu w (.inr rfl)) huv hvw ho ho'

theorem le_trans (huv : u.le v = true) (hvw : v.le w = true) : u.le w = true := by
  obtain ⟨o, ho, hle⟩ := le_iff.mp huv
  obtain ⟨o', ho', hle'⟩ := le_iff.mp hvw
  exact le_iff.mpr ⟨_, h.trans ho ho' hle hle', Ordering.isLE_then_iff_and.mpr ⟨hle, .inr hle'⟩⟩

theorem lt_of_lt_of_le (huv : u.lt v = true) (hvw : v.le w = true) : u.lt w = true := by
  obtain ⟨o', ho', hle'⟩ := le_iff.mp hvw
  exact lt_iff.mpr (h.trans (lt_iff.mp huv) ho' rfl hle')

theorem lt_of_le_of_lt (huv : u.le v = true) (hvw : v.lt w = true) : u.lt w = true := by
  obtain ⟨o, ho, hle⟩ := le_iff.mp huv
  have hends := h.trans ho (lt_iff.mp hvw) hle rfl
  cases o with
  | gt => cases hle
  | _ => exact lt_iff.mpr hends

end InOneOrder

theorem compare?_self (h : v.isString = true ∨ v.toNumber ≠ .nan) : v.compare? v = some .eq := by
  by_cases hstring : v.isString = true
  · obtain ⟨s, hs⟩ := Option.isSome_iff_exists.mp hstring
    rw [comparesBy_asString? hstring hstring, hs]
    exact congrArg some Std.ReflCmp.compare_self
  · rw [compare?_eq_toNumber fun h => hstring h.1]
    exact beq_iff_eq.mp (Number.eq_self_iff.mpr (h.resolve_left hstring))

theorem toNumber_bool_ne_nan (b : Bool) : (bool b).toNumber ≠ .nan := by
  cases b with
  | true => simpa [toNumber] using Number.ofNat_ne_nan 1
  | false => simp [toNumber, Number.zero]

theorem compare?_of_strictEq (h : strictEq v w = true)
    (htype : v.typeName ∈ ["null", "boolean", "number", "string"]) : v.compare? w = some .eq := by
  cases agree_iff.mp h with
  | null => exact compare?_self (.inr (by simp [toNumber, Number.zero]))
  | bool b => exact compare?_self (.inr (toNumber_bool_ne_nan b))
  | number h => exact beq_iff_eq.mp h
  | string s => exact compare?_self (.inl rfl)
  | array | object => simp [typeName] at htype

theorem chained_two (relation : Value → Value → Bool) (u w : Value) :
    Builtin.chained relation [u, w] = relation u w := Bool.and_true _

theorem chained_three_iff (relation : Value → Value → Bool) (u v w : Value) :
    Builtin.chained relation [u, v, w] = true ↔ relation u v = true ∧ relation v w = true := by
  simp [Builtin.chained, Builtin.related, argument]

/-- The laws of the order.  Comparison may be reversed, and it fails only for what is not a number.  "At
most" is "less" or equal, and of "less" and "greater" there is at most one.  Among values of which all or
at most one are strings both are transitive, and so what lies between two others tells the order of
these.  Strictly equal scalars are equal in the order. -/
theorem order_laws (u v w : Value) :
    (w.compare? v = (v.compare? w).map Ordering.swap ∧
      (v.compare? w = none ↔
        ¬(v.isString = true ∧ w.isString = true) ∧ (v.toNumber = .nan ∨ w.toNumber = .nan))) ∧
    (v.lt w = w.gt v ∧ v.le w = w.ge v ∧
      (v.le w = true ↔ v.lt w = true ∨ v.compare? w = some .eq) ∧
      ¬(v.lt w = true ∧ v.gt w = true)) ∧
    (InOneOrder [u, v, w] →
      (u.lt v = true → v.lt w = true → u.lt w = true) ∧
      (u.le v = true → v.le w = true → u.le w = true) ∧
      (u.lt v = true → v.le w = true → u.lt w = true) ∧
      (u.le v = true → v.lt w = true → u.lt w = true) ∧
      (Builtin.less [u, v, w] = true → Builtin.less [u, w] = true) ∧
      (Builtin.lessOrEqual [u, v, w] = true → Builtin.lessOrEqual [u, w] = true)) ∧
    (v.typeName ∈ ["null", "boolean", "number", "string"] → strictEq v w = true →
      v.compare? w = some .eq) := by
  have hle : v.le w = true ↔ v.lt w = true ∨ v.compare? w = some .eq := by
    rw [le, lt, Bool.or_eq_true, beq_iff_eq, beq_iff_eq]
  refine ⟨⟨compare?_swap v w, compare?_eq_none_iff⟩, ⟨lt_eq_gt v w, le_eq_ge v w, hle, ?_⟩,
    fun h => ⟨fun huv hvw => ?_, h.le_trans, h.lt_of_lt_of_le, h.lt_of_le_of_lt, ?_, ?_⟩,
    fun htype h => compare?_of_strictEq h htype⟩
  · rw [lt_iff, gt_iff]
    rintro ⟨hlt, hgt⟩
    cases hlt.symm.trans hgt
  · exact h.lt_of_lt_of_le huv (le_of_lt hvw)
  · rw [Builtin.less, chained_three_iff, chained_two]
    exact fun hcall => h.lt_of_lt_of_le hcall.1 (le_of_lt hcall.2)
  · rw [Builtin.lessOrEqual, chained_three_iff, chained_two]
    exact fun hcall => h.le_trans hcall.1 hcall.2

/-- Two strings among three values may go round in a circle. -/
example : lt (string "10") (string "9") = true ∧ lt (string "9") (number (.ofNat 10)) = true ∧
    lt (string "10") (number (.ofNat 10)) = false := by decide +kernel

/-- A boolean lies between null and a string. -/
theorem order_laws_coerced : ∃ u v w : Value, InOneOrder [u, v, w] ∧ Builtin.less [u, v, w] = true ∧
    Builtin.less [u, w] = true ∧ w.gt u = true ∧ v.compare? v = some .eq := by
  let v : Value := bool true
  let w : Value := string " 0x1F\n"
  have horder : InOneOrder [null, v, w] := .inr (by decide)
  have huv : lt null v = true := by decide +kernel
  have hvw : v.lt w = true := by decide +kernel
  obtain ⟨_, _, htrans, _⟩ := order_laws null v w
  obtain ⟨hlt, _, _, _, hless, _⟩ := htrans horder
  have hcall : Builtin.less [null, v, w] = true := (chained_three_iff lt null v w).mpr ⟨huv, hvw⟩
  obtain ⟨_, ⟨hgt, _⟩, _, _⟩ := order_laws w null w
  obtain ⟨_, _, _, hequal⟩ := order_laws null v v
  exact ⟨null, v, w, horder, hcall, hless hcall, hgt.symm.trans (hlt huv hvw),
    hequal (by decide) (by decide)⟩

end Value

end JsonRules
