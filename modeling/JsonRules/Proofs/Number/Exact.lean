import JsonRules.Number.Arithmetic

/-!
# Exact results

Rounding leaves a quotient alone that is a magnitude already.  So numbers without fraction are the same
as the integers they stand for, but for the sign of zero.
-/

namespace JsonRules

theorem roundDiv_mul_self (n : Nat) {k : Nat} (hk : 0 < k) : roundDiv (n * k) k = n := by
  rw [roundDiv, Nat.mul_mod_left, Nat.mul_div_cancel n hk]
  exact if_pos hk

theorem roundDiv_mul_cancel {n k : Nat} (hk : 0 < k) (h : k ∣ n) : roundDiv n k * k = n := by
  obtain ⟨q, rfl⟩ := h
  rw [Nat.mul_comm k q, roundDiv_mul_self q hk]

theorem two_pow_mul_unitsPerOne (k : Nat) : 2 ^ k * unitsPerOne = 2 ^ (k + oneBits) := by
  rw [Nat.pow_add, unitsPerOne]

theorem overflowUnits_eq_mul : overflowUnits = 2 ^ 1024 * unitsPerOne := by
  have hbits : 1024 + oneBits = overflowBits := rfl
  rw [two_pow_mul_unitsPerOne, hbits, overflowUnits]

theorem spacing_pos (units : Nat) : 0 < spacing units := Nat.two_pow_pos _

namespace Magnitude

theorem eq_of_units_eq {m m' : Magnitude} (h : m.units = m'.units) : m = m' := by
  obtain ⟨units, hrepresentable⟩ := m
  subst h
  rfl

theorem eq_zero_of_units {m : Magnitude} (h : m.units = 0) : m = .zero := eq_of_units_eq h

theorem nearest?_units_mul (m : Magnitude) {k : Nat} (hk : 0 < k) :
    nearest? (m.units * k) k = some m := by
  obtain ⟨units, hrange, significand, hsignificand⟩ := m
  -- The quotient is a multiple of its own spacing, so both roundings are exact.
  have hround : roundDiv (units * k) (k * spacing units) * spacing units = units := by
    have hnum : units * k = significand * (k * spacing units) :=
      calc units * k = 2 ^ (units.log2 - 52) * significand * k := congrArg (· * k) hsignificand
        _ = significand * (k * spacing units) := by
          simp only [spacing, Nat.mul_comm, Nat.mul_left_comm]
    rw [hnum, roundDiv_mul_self _ (Nat.mul_pos hk (spacing_pos units)), Nat.mul_comm]
    exact hsignificand.symm
  simp only [nearest?, Nat.mul_div_cancel units hk, hround, dif_pos hrange]

theorem nearest?_eq_some {num den : Nat} {m : Magnitude} (h : nearest? num den = some m) :
    m.units = roundDiv num (den * spacing (num / den)) * spacing (num / den) := by
  rw [nearest?] at h
  split at h
  · cases h
    rfl
  · cases h

end Magnitude

namespace Number

theorem ofRatio_units_mul (negative : Bool) (m : Magnitude) {k : Nat} (hk : 0 < k) :
    ofRatio negative (m.units * k) k = finite negative m := by
  have h := m.nearest?_units_mul hk
  unfold ofRatio
  rw [h]

theorem ofRatio_units (negative : Bool) (m : Magnitude) :
    ofRatio negative m.units 1 = finite negative m :=
  (congrArg (ofRatio negative · 1) (Nat.mul_one m.units)).symm.trans
    (ofRatio_units_mul negative m Nat.one_pos)

theorem signedWhole_of_units_eq_zero {negative : Bool} {m : Magnitude} (h : m.units = 0) :
    signedWhole negative m = 0 := by
  have hwhole : wholePart m = 0 := by rw [wholePart, h, Nat.zero_div]
  cases negative <;> simp [signedWhole, hwhole]

theorem natAbs_signedWhole (negative : Bool) (m : Magnitude) :
    (signedWhole negative m).natAbs = wholePart m := by
  cases negative <;> simp [signedWhole]

theorem wholePart_mul {negative : Bool} {m : Magnitude} (h : (finite negative m).isIntegral = true) :
    wholePart m * unitsPerOne = m.units :=
  Nat.div_mul_cancel (Nat.dvd_of_mod_eq_zero (beq_iff_eq.mp h))

/-- Going through the integer loses nothing but the sign of zero. -/
theorem ofInt_signedWhole {negative : Bool} {m : Magnitude}
    (h : (finite negative m).isIntegral = true) :
    ofInt (signedWhole negative m) = if m.units = 0 then zero else finite negative m := by
  have hwhole := wholePart_mul h
  rw [ofInt, natAbs_signedWhole, hwhole, ofRatio_units]
  split
  · rename_i hzero
    rw [signedWhole_of_units_eq_zero hzero, Magnitude.eq_zero_of_units hzero]
    rfl
  · rename_i hne
    have hpos : 0 < wholePart m := by
      refine Nat.pos_of_ne_zero fun hzero => hne ?_
      rw [← hwhole, hzero, Nat.zero_mul]
    have hsign : decide (signedWhole negative m < 0) = negative := by
      cases negative with
      | true => simpa [signedWhole] using hpos
      | false => simp [signedWhole]
    rw [hsign]

end Number

end JsonRules
