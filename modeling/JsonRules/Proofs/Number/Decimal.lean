import JsonRules.Proofs.Number.Exact
import JsonRules.Number.Decimal

/-!
# The magnitude of a decimal

Reading a decimal gives a magnitude, or none beyond the range, and the sign has no part in it.
-/

namespace JsonRules

namespace Number

/-- A magnitude with a sign, or the infinity of that sign. -/
def ofMagnitude? (negative : Bool) : Option Magnitude → Number
  | some m => finite negative m
  | none => infinite negative

theorem ofRatio_eq (negative : Bool) (num den : Nat) :
    ofRatio negative num den = ofMagnitude? negative (Magnitude.nearest? num den) := by
  unfold ofRatio
  cases Magnitude.nearest? num den <;> rfl

theorem ofMagnitude?_ne_nan (negative : Bool) (result : Option Magnitude) :
    ofMagnitude? negative result ≠ nan := by
  cases result <;> exact fun h => by cases h

theorem ofInt_eq (i : Int) :
    ofInt i = ofMagnitude? (decide (i < 0)) (Magnitude.nearest? (i.natAbs * unitsPerOne) 1) :=
  ofRatio_eq _ _ _

theorem ofNat_eq (n : Nat) :
    ofNat n = ofMagnitude? false (Magnitude.nearest? (n * unitsPerOne) 1) := by
  rw [ofNat, ofInt_eq, decide_eq_false (Int.not_lt.mpr (Int.natCast_nonneg n)), Int.natAbs_natCast]

theorem ofNat_ne_nan (n : Nat) : ofNat n ≠ nan :=
  ofNat_eq n ▸ ofMagnitude?_ne_nan false _

theorem ofMagnitude?_eq_finite_iff {negative : Bool} {result : Option Magnitude} {m : Magnitude} :
    ofMagnitude? negative result = finite negative m ↔ result = some m := by
  cases result with
  | none => simp [ofMagnitude?]
  | some n => simp [ofMagnitude?]

end Number

namespace Decimal

/-- The magnitude nearest to a decimal, none beyond the range. -/
def magnitude? (d : Decimal) : Option Magnitude :=
  if d.significand = 0 then some .zero
  else if farExponent < d.exponent then none
  else if d.exponent + d.significand.log2 < -farExponent then some .zero
  else if 0 ≤ d.exponent then
    Magnitude.nearest? (d.significand * 10 ^ d.exponent.toNat * unitsPerOne) 1
  else Magnitude.nearest? (d.significand * unitsPerOne) (10 ^ (-d.exponent).toNat)

theorem toNumber_eq (negative : Bool) (d : Decimal) :
    d.toNumber negative = .ofMagnitude? negative d.magnitude? := by
  simp only [toNumber, magnitude?, Number.ofRatio_eq]
  split
  · rfl
  · split
    · rfl
    · split
      · rfl
      · split <;> rfl

theorem toNumber_ne_nan (negative : Bool) (d : Decimal) : d.toNumber negative ≠ .nan :=
  toNumber_eq negative d ▸ Number.ofMagnitude?_ne_nan negative _

theorem significand_ne_zero_of_magnitude? {d : Decimal} {m : Magnitude}
    (h : d.magnitude? = some m) (hunits : m.units ≠ 0) : d.significand ≠ 0 := by
  intro hzero
  rw [magnitude?, if_pos hzero] at h
  exact hunits (Option.some.inj h ▸ rfl)

theorem exponent_le_of_magnitude? {d : Decimal} {m : Magnitude} (h : d.magnitude? = some m)
    (hne : d.significand ≠ 0) : d.exponent ≤ farExponent := by
  rw [magnitude?, if_neg hne] at h
  split at h
  · cases h
  · exact Int.not_lt.mp ‹_›

theorem magnitude?_whole (n : Nat) :
    magnitude? ⟨n, 0⟩ = Magnitude.nearest? (n * unitsPerOne) 1 := by
  have hfar : ¬farExponent < 0 := by decide
  have hnear : ¬(0 : Int) + n.log2 < -farExponent := by
    rw [farExponent]
    omega
  by_cases hzero : n = 0
  · have hnearest := Magnitude.zero.nearest?_units_mul Nat.one_pos
    rw [magnitude?, if_pos hzero, hzero, Nat.zero_mul]
    exact hnearest.symm
  · rw [magnitude?, if_neg hzero, if_neg hfar, if_neg hnear, if_pos (Int.le_refl 0), Int.toNat_zero,
      Nat.pow_zero, Nat.mul_one]

/-- The zeros before the point may be written out. -/
theorem magnitude?_mul_pow {d : Decimal} (hexponent : 0 ≤ d.exponent)
    (hfar : d.exponent ≤ farExponent) :
    magnitude? ⟨d.significand * 10 ^ d.exponent.toNat, 0⟩ = d.magnitude? := by
  have hpow : 10 ^ d.exponent.toNat ≠ 0 := Nat.ne_of_gt (Nat.pow_pos (by decide))
  by_cases hzero : d.significand = 0
  · simp [magnitude?, hzero]
  · have hbounds : -farExponent ≤ 0 ∧ (0 : Int) ≤ farExponent := by decide
    have hnear : ¬d.exponent + d.significand.log2 < -farExponent := by omega
    have hnear' : ¬(0 : Int) + (d.significand * 10 ^ d.exponent.toNat).log2 < -farExponent := by omega
    simp only [magnitude?, if_neg (Nat.mul_ne_zero hzero hpow), if_neg hzero,
      if_neg (Int.not_lt.mpr hfar), if_neg (Int.not_lt.mpr hbounds.2), if_neg hnear, if_neg hnear',
      if_pos hexponent, if_pos (Int.le_refl 0), Int.toNat_zero, Nat.pow_zero, Nat.mul_one]

end Decimal

end JsonRules
