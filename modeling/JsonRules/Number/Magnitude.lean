/-!
# Magnitudes of binary64 numbers

Every finite binary64 number is, up to its sign, a whole number of units of `2 ^ -1074`.  A magnitude
is that number of units: it has at most 53 significant bits and lies below `2 ^ 2098`.  Rounding is
done once for all operations: `Magnitude.nearest?` takes an exact quotient to the nearest magnitude,
ties to the one with an even last bit, and answers `none` from the overflow threshold on.
-/

namespace JsonRules

-- Powers of numbers are those of the core library, whatever else is imported.
@[default_instance high]
instance (priority := high) corePow {α : Type} [NatPow α] : Pow α Nat := instPowNat

/-- The exponent of the number of units in one. -/
def oneBits : Nat := 1074

def unitsPerOne : Nat := 2 ^ oneBits

theorem unitsPerOne_pos : 0 < unitsPerOne := Nat.two_pow_pos oneBits

/-- The number of bits that is too large for a finite number. -/
def overflowBits : Nat := 2098

/-- The least number of units that is too large for a finite number. -/
def overflowUnits : Nat := 2 ^ overflowBits

theorem overflowUnits_pos : 0 < overflowUnits := Nat.two_pow_pos overflowBits

/-- A number of units with at most 53 significant bits, in the finite range. -/
def Representable (units : Nat) : Prop :=
  units < overflowUnits ∧ 2 ^ (units.log2 - 52) ∣ units

instance (units : Nat) : Decidable (Representable units) :=
  inferInstanceAs (Decidable (_ ∧ _))

structure Magnitude where
  units : Nat
  representable : Representable units
  deriving DecidableEq

/-- The integer nearest to `num / den`, ties to even. -/
def roundDiv (num den : Nat) : Nat :=
  let quotient := num / den
  let rest := num % den
  if 2 * rest < den then quotient
  else if den < 2 * rest then quotient + 1
  else quotient + quotient % 2

theorem roundDiv_le (num den : Nat) : roundDiv num den ≤ num / den + 1 := by
  simp only [roundDiv]
  split
  · omega
  · split <;> omega

/-- The spacing of the magnitudes that have as many bits as `units`. -/
def spacing (units : Nat) : Nat := 2 ^ (units.log2 - 52)

theorem div_spacing_lt (units : Nat) : units / spacing units < 2 ^ 53 := by
  rw [spacing, Nat.div_lt_iff_lt_mul (Nat.two_pow_pos _), ← Nat.pow_add]
  exact Nat.lt_of_lt_of_le Nat.lt_log2_self (Nat.pow_le_pow_right (by decide) (by omega))

theorem roundDiv_mul_spacing_le (num den : Nat) :
    roundDiv num (den * spacing (num / den)) ≤ 2 ^ 53 := by
  have hround := roundDiv_le num (den * spacing (num / den))
  rw [← Nat.div_div_eq_div_mul] at hround
  have hspacing := div_spacing_lt (num / den)
  omega

/-- At most 53 bits above a power of two are 53 significant bits. -/
theorem pow_dvd_mul_of_le {significand : Nat} (h : significand ≤ 2 ^ 53) (shift : Nat) :
    2 ^ ((significand * 2 ^ shift).log2 - 52) ∣ significand * 2 ^ shift := by
  rcases Nat.eq_zero_or_pos significand with rfl | hpos
  · simp
  rcases Nat.lt_or_eq_of_le h with hlt | rfl
  · refine Nat.dvd_trans (Nat.pow_dvd_pow 2 ?_) (Nat.dvd_mul_left _ _)
    have hne : significand * 2 ^ shift ≠ 0 :=
      Nat.ne_of_gt (Nat.mul_pos hpos (Nat.two_pow_pos shift))
    have hlog : (significand * 2 ^ shift).log2 < 53 + shift := by
      rw [Nat.log2_lt hne, Nat.pow_add]
      exact Nat.mul_lt_mul_of_pos_right hlt (Nat.two_pow_pos shift)
    omega
  · rw [← Nat.pow_add, Nat.log2_two_pow]
    exact Nat.pow_dvd_pow 2 (by omega)

namespace Magnitude

def zero : Magnitude := ⟨0, overflowUnits_pos, Nat.dvd_zero _⟩

/-- The magnitude nearest to `num / den` units, ties to even; none if that is too large. -/
def nearest? (num den : Nat) : Option Magnitude :=
  let step := spacing (num / den)
  let units := roundDiv num (den * step) * step
  if h : units < overflowUnits then
    some ⟨units, h, pow_dvd_mul_of_le (roundDiv_mul_spacing_le num den) _⟩
  else none

end Magnitude

end JsonRules
