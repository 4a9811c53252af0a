import JsonRules.Number.Basic

/-!
# The order of numbers

Every number but not-a-number has a place among the integers, its number of units or, for the
infinities, the bound of that, and numbers compare as their places do.  So equality of values is
symmetric and transitive, and a number equals itself unless it is not-a-number.  "At most" is transitive
too.
-/

namespace JsonRules.Number

/-- The number of units, and the infinities where that is out of range. -/
def place? : Number → Option Int
  | nan => none
  | infinite negative => some (if negative then -(overflowUnits : Int) else overflowUnits)
  | finite negative m => some (signedUnits negative m)

theorem place?_eq_none_iff {x : Number} : x.place? = none ↔ x = nan := by
  cases x with
  | nan => exact iff_of_true rfl rfl
  | infinite | finite => exact iff_of_false (Option.some_ne_none _) fun h => by cases h

theorem signedUnits_lt (negative : Bool) (m : Magnitude) :
    signedUnits negative m < overflowUnits ∧ -(overflowUnits : Int) < signedUnits negative m := by
  have hrange : (m.units : Int) < overflowUnits := Int.ofNat_lt.mpr m.representable.1
  cases negative with
  | true =>
      rw [signedUnits, if_pos rfl]
      omega
  | false =>
      rw [signedUnits, if_neg Bool.false_ne_true]
      omega

theorem place?_range {x : Number} {a : Int} (h : x.place? = some a) :
    -(overflowUnits : Int) ≤ a ∧ a ≤ overflowUnits := by
  cases x with
  | nan => cases h
  | infinite negative =>
      obtain rfl := Option.some.inj h
      cases negative <;> simp only [Bool.false_eq_true, if_true, if_false] <;> omega
  | finite negative m =>
      obtain rfl := Option.some.inj h
      have hrange := signedUnits_lt negative m
      omega

/-- Numbers compare as their places do. -/
theorem compare?_eq_place? (x y : Number) :
    x.compare? y = x.place?.bind fun a => y.place?.map fun b => compare a b := by
  have hrange : -(overflowUnits : Int) < overflowUnits := by
    have hpos : 0 < (overflowUnits : Int) := Int.ofNat_lt.mpr overflowUnits_pos
    omega
  cases x with
  | nan => rfl
  | infinite a =>
      cases y with
      | nan => rfl
      | infinite b =>
          cases a with
          | true =>
              cases b with
              | true => exact congrArg some (Int.compare_eq_eq.mpr rfl).symm
              | false => exact congrArg some (Int.compare_eq_lt.mpr hrange).symm
          | false =>
              cases b with
              | true => exact congrArg some (Int.compare_eq_gt.mpr hrange).symm
              | false => exact congrArg some (Int.compare_eq_eq.mpr rfl).symm
      | finite b n =>
          cases a with
          | true => exact congrArg some (Int.compare_eq_lt.mpr (signedUnits_lt b n).2).symm
          | false => exact congrArg some (Int.compare_eq_gt.mpr (signedUnits_lt b n).1).symm
  | finite a m =>
      cases y with
      | nan => rfl
      | infinite b =>
          cases b with
          | true => exact congrArg some (Int.compare_eq_gt.mpr (signedUnits_lt a m).2).symm
          | false => exact congrArg some (Int.compare_eq_lt.mpr (signedUnits_lt a m).1).symm
      | finite b n => rfl

theorem eq_iff {x y : Number} : x.eq y = true ↔ ∃ a, x.place? = some a ∧ y.place? = some a := by
  rw [eq, compare?_eq_place?, beq_iff_eq]
  cases x.place? with
  | none => simp
  | some a =>
      cases y.place? with
      | none => simp
      | some b =>
          simp only [Option.bind_some, Option.map_some, Option.some.injEq, Int.compare_eq_eq]
          exact ⟨fun h => ⟨a, rfl, h.symm⟩, fun ⟨_, ha, hb⟩ => ha.trans hb.symm⟩

theorem lt_iff {x y : Number} :
    x.lt y = true ↔ ∃ a b, x.place? = some a ∧ y.place? = some b ∧ a < b := by
  rw [lt, compare?_eq_place?, beq_iff_eq]
  cases x.place? with
  | none => simp
  | some a =>
      cases y.place? with
      | none => simp
      | some b => simp [Int.compare_eq_lt]

theorem lt_of_place? {x y : Number} {a b : Int} (hx : x.place? = some a) (hy : y.place? = some b) :
    x.lt y = decide (a < b) := by
  rw [Bool.eq_iff_iff, lt_iff, decide_eq_true_iff, hx, hy]
  simp

theorem le_iff {x y : Number} :
    x.le y = true ↔ ∃ a b, x.place? = some a ∧ y.place? = some b ∧ a ≤ b := by
  rw [le, Bool.or_eq_true, lt_iff, eq_iff]
  constructor
  · rintro (⟨a, b, hx, hy, hlt⟩ | ⟨a, hx, hy⟩)
    · exact ⟨a, b, hx, hy, Int.le_of_lt hlt⟩
    · exact ⟨a, a, hx, hy, Int.le_refl a⟩
  · rintro ⟨a, b, hx, hy, hle⟩
    rcases Int.lt_or_eq_of_le hle with hlt | rfl
    · exact .inl ⟨a, b, hx, hy, hlt⟩
    · exact .inr ⟨a, hx, hy⟩

theorem ne_nan_of_le {x y : Number} (h : x.le y = true) : x ≠ nan := by
  obtain ⟨a, b, hx, _⟩ := le_iff.mp h
  rintro rfl
  cases hx

theorem le_trans {x y z : Number} (h : x.le y = true) (h' : y.le z = true) : x.le z = true := by
  obtain ⟨a, b, hx, hy, hab⟩ := le_iff.mp h
  obtain ⟨b', c, hy', hz, hbc⟩ := le_iff.mp h'
  obtain rfl := Option.some.inj (hy.symm.trans hy')
  exact le_iff.mpr ⟨a, c, hx, hz, Int.le_trans hab hbc⟩

theorem eq_symm {x y : Number} (h : x.eq y = true) : y.eq x = true := by
  obtain ⟨a, hx, hy⟩ := eq_iff.mp h
  exact eq_iff.mpr ⟨a, hy, hx⟩

theorem eq_trans {x y z : Number} (h : x.eq y = true) (h' : y.eq z = true) : x.eq z = true := by
  obtain ⟨a, hx, hy⟩ := eq_iff.mp h
  obtain ⟨b, hy', hz⟩ := eq_iff.mp h'
  obtain rfl := Option.some.inj (hy.symm.trans hy')
  exact eq_iff.mpr ⟨a, hx, hz⟩

theorem eq_self_iff {x : Number} : x.eq x = true ↔ x ≠ nan := by
  rw [eq_iff, ne_eq, ← place?_eq_none_iff, ← ne_eq, Option.ne_none_iff_exists']
  simp

theorem isNaN_iff {x : Number} : x.isNaN = true ↔ x = nan := by
  cases x <;> simp [isNaN]

theorem same_iff {x y : Number} : x.same y = true ↔ x.eq y = true ∨ x = nan ∧ y = nan := by
  simp [same, isNaN_iff]

theorem same_iff_place? {x y : Number} : x.same y = true ↔ x.place? = y.place? := by
  rw [same_iff, eq_iff, ← place?_eq_none_iff, ← place?_eq_none_iff]
  cases x.place? with
  | none => simp [eq_comm]
  | some a => simp [eq_comm]

theorem same_refl (x : Number) : x.same x = true := by
  rw [same_iff, eq_self_iff, and_self]
  exact (Classical.em (x = nan)).symm

theorem same_symm {x y : Number} (h : x.same y = true) : y.same x = true :=
  same_iff.mpr ((same_iff.mp h).imp eq_symm And.symm)

theorem same_trans {x y z : Number} (h : x.same y = true) (h' : y.same z = true) :
    x.same z = true := by
  rcases same_iff.mp h with hxy | ⟨rfl, rfl⟩
  · rcases same_iff.mp h' with hyz | ⟨rfl, rfl⟩
    · exact same_iff.mpr (.inl (eq_trans hxy hyz))
    · exact absurd rfl (eq_self_iff.mp (eq_trans (eq_symm hxy) hxy))
  · exact h'

end JsonRules.Number
