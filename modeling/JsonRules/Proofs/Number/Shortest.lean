import JsonRules.Proofs.Number.Decimal
import JsonRules.Number.Shortest

/-!
# Shortest decimals read back

On whatever grid the shortest decimal of a magnitude is found, and also where none is found, it reads as
that magnitude, with either sign.
-/

namespace JsonRules

namespace Magnitude

theorem isReadFrom_iff {m : Magnitude} {d : Decimal} :
    m.isReadFrom d = true ↔ d.magnitude? = some m := by
  rw [isReadFrom, decide_eq_true_iff, d.toNumber_eq, Number.ofMagnitude?_eq_finite_iff]

theorem magnitude?_of_onGrid? {tie : Tie} {m : Magnitude} {exponent : Int} {d : Decimal}
    (h : m.onGrid? tie exponent = some d) : d.magnitude? = some m := by
  simp only [onGrid?] at h
  split at h
  · rename_i hbelow habove
    cases h
    split
    · exact isReadFrom_iff.mp habove
    · exact isReadFrom_iff.mp hbelow
  · rename_i hbelow _
    cases h
    exact isReadFrom_iff.mp hbelow
  · rename_i _ habove
    cases h
    exact isReadFrom_iff.mp habove
  · cases h

theorem expansion_significand_ne_zero {m : Magnitude} (h : m.units ≠ 0) :
    m.expansion.significand ≠ 0 :=
  Nat.mul_ne_zero h (Nat.ne_of_gt (Nat.pow_pos (by decide)))

/-- All digits of a magnitude are far above what vanishes. -/
theorem oneBits_le_log2_expansion {m : Magnitude} (h : m.units ≠ 0) :
    oneBits ≤ m.expansion.significand.log2 := by
  have hle : 2 ^ oneBits ≤ m.units * 5 ^ oneBits :=
    calc 2 ^ oneBits ≤ 5 ^ oneBits := Nat.pow_le_pow_left (by decide) oneBits
      _ ≤ m.units * 5 ^ oneBits := Nat.le_mul_of_pos_left _ (Nat.pos_of_ne_zero h)
  exact (Nat.le_log2 (expansion_significand_ne_zero h)).mpr hle

theorem magnitude?_expansion {m : Magnitude} (h : m.units ≠ 0) :
    m.expansion.magnitude? = some m := by
  have hexponent : m.expansion.exponent = -1074 := rfl
  have hlog : 1074 ≤ m.expansion.significand.log2 := oneBits_le_log2_expansion h
  have hfar : ¬Decimal.farExponent < m.expansion.exponent := by
    rw [hexponent, Decimal.farExponent]
    omega
  have hnear : ¬m.expansion.exponent + m.expansion.significand.log2 < -Decimal.farExponent := by
    rw [hexponent, Decimal.farExponent]
    omega
  have hneg : ¬0 ≤ m.expansion.exponent := by
    rw [hexponent]
    omega
  have hnum : m.expansion.significand * unitsPerOne =
      m.units * 10 ^ (-m.expansion.exponent).toNat := by
    rw [expansion, unitsPerOne, Nat.mul_assoc, ← Nat.mul_pow, Int.neg_neg, Int.toNat_natCast]
  rw [Decimal.magnitude?, if_neg (expansion_significand_ne_zero h), if_neg hfar, if_neg hnear,
    if_neg hneg, hnum]
  exact m.nearest?_units_mul (Nat.pow_pos (by decide))

theorem magnitude?_shortest (tie : Tie) {m : Magnitude} (h : m.units ≠ 0) :
    (m.shortest tie).magnitude? = some m := by
  rw [shortest]
  cases hfound : (List.range 17).findSome? fun n : Nat => m.onGrid? tie (m.leadingExponent - n) with
  | some d =>
      obtain ⟨n, _, hn⟩ := List.exists_of_findSome?_eq_some hfound
      exact magnitude?_of_onGrid? hn
  | none => exact magnitude?_expansion h

end Magnitude

end JsonRules
