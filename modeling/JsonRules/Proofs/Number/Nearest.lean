import JsonRules.Proofs.Number.Decimal
import JsonRules.Proofs.Number.Exact

/-!
# Rounding to the nearest

A whole number of units is rounded to the nearest multiple of its spacing.  No magnitude is nearer: those
that are no multiples of the spacing lie below all that are candidates.  Of two magnitudes that are equally
near the one with an even last bit is taken, and this settles which one it is.  The result is out of range
from halfway between the greatest magnitude and the next power of two on.
-/

namespace JsonRules

/-! ### Rounded quotients -/

theorem roundDiv_cases (num den : Nat) :
    roundDiv num den = num / den ∧ 2 * (num % den) < den ∨
      roundDiv num den = num / den + 1 ∧ den < 2 * (num % den) ∨
      roundDiv num den = num / den + num / den % 2 ∧ 2 * (num % den) = den := by
  simp only [roundDiv]
  split
  · exact .inl ⟨rfl, ‹_›⟩
  · split
    · exact .inr (.inl ⟨rfl, ‹_›⟩)
    · exact .inr (.inr ⟨rfl, by omega⟩)

/-- Different multiples are a step apart. -/
theorem mul_add_le_or_le {a b : Nat} (h : a ≠ b) (step : Nat) :
    a * step + step ≤ b * step ∨ b * step + step ≤ a * step := by
  rw [← Nat.succ_mul, ← Nat.succ_mul]
  exact (Nat.lt_or_gt_of_ne h).imp (Nat.mul_le_mul_right step) (Nat.mul_le_mul_right step)

section Quotient

variable {num den k : Nat}

/-- The error is at most half a step, and a result in the middle of two steps is even. -/
theorem roundDiv_error (num : Nat) (hden : 0 < den) :
    2 * ((roundDiv num den * den : Nat) - (num : Int)).natAbs ≤ den ∧
      (2 * ((roundDiv num den * den : Nat) - (num : Int)).natAbs = den →
        roundDiv num den % 2 = 0) := by
  have hdiv := Nat.div_add_mod' num den
  have hmod := Nat.mod_lt num hden
  have hsucc : (num / den + 1) * den = num / den * den + den := Nat.succ_mul _ _
  rcases roundDiv_cases num den with ⟨h, hrest⟩ | ⟨h, hrest⟩ | ⟨h, hrest⟩
  · rw [h]
    omega
  · rw [h]
    omega
  · rcases Nat.mod_two_eq_zero_or_one (num / den) with heven | hodd
    · rw [h, heven, Nat.add_zero]
      omega
    · rw [h, hodd]
      omega

theorem roundDiv_nearest (num : Nat) (hden : 0 < den) (k : Nat) :
    ((roundDiv num den * den : Nat) - (num : Int)).natAbs ≤ ((k * den : Nat) - (num : Int)).natAbs := by
  by_cases hk : k = roundDiv num den
  · exact hk ▸ Nat.le_refl _
  · have herror := (roundDiv_error num hden).1
    have hapart := mul_add_le_or_le hk den
    omega

theorem even_roundDiv_of_tie (hden : 0 < den) (hk : k ≠ roundDiv num den)
    (h : ((k * den : Nat) - (num : Int)).natAbs =
      ((roundDiv num den * den : Nat) - (num : Int)).natAbs) : roundDiv num den % 2 = 0 := by
  obtain ⟨herror, heven⟩ := roundDiv_error num hden
  have hapart := mul_add_le_or_le hk den
  exact heven (by omega)

theorem roundDiv_mul_add (q : Nat) (hk : 2 * k < den) : roundDiv (q * den + k) den = q := by
  have hsmall : k < den := by omega
  have hdiv : (q * den + k) / den = q := by
    rw [Nat.add_comm, Nat.add_mul_div_right _ _ (by omega), Nat.div_eq_of_lt hsmall, Nat.zero_add]
  rw [roundDiv, Nat.mul_add_mod_of_lt hsmall, hdiv]
  exact if_pos hk

theorem roundDiv_mul_right (num den : Nat) (hk : 0 < k) :
    roundDiv (num * k) (den * k) = roundDiv num den := by
  have hscaled : 2 * (num % den * k) = 2 * (num % den) * k := (Nat.mul_assoc ..).symm
  simp only [roundDiv, Nat.mul_div_mul_right _ _ hk, Nat.mul_mod_mul_right, hscaled,
    Nat.mul_lt_mul_right hk]

end Quotient

/-! ### The spacing -/

theorem add_le_of_dvd_of_lt {step a b : Nat} (ha : step ∣ a) (hb : step ∣ b) (h : a < b) :
    a + step ≤ b :=
  Nat.not_lt.mp fun hlt => Nat.not_le.mpr h (Nat.le_of_lt_add_of_dvd hlt hb ha)

section Spacing

variable {n k : Nat}

theorem log2_mul_two_pow (hn : n ≠ 0) (k : Nat) : (n * 2 ^ k).log2 = n.log2 + k := by
  rw [Nat.log2_eq_iff (Nat.mul_ne_zero hn (Nat.ne_of_gt (Nat.two_pow_pos k)))]
  rw [Nat.add_right_comm, Nat.pow_add, Nat.pow_add 2 (n.log2 + 1)]
  exact ⟨Nat.mul_le_mul_right _ (Nat.log2_self_le hn),
    Nat.mul_lt_mul_of_pos_right Nat.lt_log2_self (Nat.two_pow_pos k)⟩

/-- Less than a power of two that divides the number does not make it longer. -/
theorem log2_add (hdvd : 2 ^ k ∣ n) (hne : n ≠ 0) {m : Nat} (hm : m < 2 ^ k) : (n + m).log2 = n.log2 := by
  have hk : k ≤ n.log2 := (Nat.le_log2 hne).mpr (Nat.le_of_dvd (Nat.pos_of_ne_zero hne) hdvd)
  have hnext : n + 2 ^ k ≤ 2 ^ (n.log2 + 1) :=
    add_le_of_dvd_of_lt hdvd (Nat.pow_dvd_pow 2 (by omega)) Nat.lt_log2_self
  have hle := Nat.log2_self_le hne
  rw [Nat.log2_eq_iff (by omega)]
  omega

/-- Where the spacing is more than a unit or just about to be, it grows with the number. -/
theorem spacing_mul_two_pow (hn : 2 ^ 52 ≤ n) (k : Nat) : spacing (n * 2 ^ k) = spacing n * 2 ^ k := by
  have hne : n ≠ 0 := Nat.ne_of_gt (Nat.lt_of_lt_of_le (Nat.two_pow_pos 52) hn)
  have hlog : 52 ≤ n.log2 := (Nat.le_log2 hne).mpr hn
  rw [spacing, spacing, log2_mul_two_pow hne, ← Nat.pow_add]
  congr 1
  omega

theorem spacing_dvd_mul_two_pow (h : spacing n ∣ n) (k : Nat) : spacing (n * 2 ^ k) ∣ n * 2 ^ k := by
  by_cases hne : n = 0
  · rw [hne, Nat.zero_mul]
    exact Nat.dvd_zero _
  · have hle : n.log2 + k - 52 ≤ n.log2 - 52 + k := by omega
    rw [spacing, log2_mul_two_pow hne]
    refine Nat.dvd_trans (Nat.pow_dvd_pow 2 hle) ?_
    rw [Nat.pow_add]
    exact Nat.mul_dvd_mul_right h _

theorem two_pow_dvd_spacing (h : 2 ^ (52 + k) ≤ n) : 2 ^ k ∣ spacing n := by
  have hne : n ≠ 0 := Nat.ne_of_gt (Nat.lt_of_lt_of_le (Nat.two_pow_pos _) h)
  have hlog := (Nat.le_log2 hne).mpr h
  exact Nat.pow_dvd_pow 2 (by omega)

theorem spacing_dvd_spacing {m : Nat} (h : m.log2 ≤ n.log2) : spacing m ∣ spacing n :=
  Nat.pow_dvd_pow 2 (by omega)

theorem log2_le_log2 {m : Nat} (h : m ≤ n) : m.log2 ≤ n.log2 := by
  by_cases hm : m = 0
  · rw [hm, Nat.log2_zero]
    exact Nat.zero_le _
  · have hn : n ≠ 0 := by omega
    exact (Nat.le_log2 hn).mpr (Nat.le_trans (Nat.log2_self_le hm) h)

/-- The last of the bits that are kept is zero. -/
def IsEven (n : Nat) : Prop := 2 * spacing n ∣ n

theorem isEven_of_mod_two {significand : Nat} (h : significand ≤ 2 ^ 53)
    (heven : significand % 2 = 0) (shift : Nat) : IsEven (significand * 2 ^ shift) := by
  obtain ⟨half, rfl⟩ := Nat.dvd_of_mod_eq_zero heven
  have hunits : 2 * half * 2 ^ shift = half * 2 ^ (shift + 1) := by
    rw [Nat.mul_comm 2, Nat.mul_assoc, ← Nat.pow_succ']
  rw [IsEven, hunits, spacing, ← Nat.pow_succ']
  rcases Nat.lt_or_eq_of_le (show half ≤ 2 ^ 52 by omega) with hlt | rfl
  · refine Nat.dvd_trans (Nat.pow_dvd_pow 2 ?_) (Nat.dvd_mul_left _ half)
    by_cases hzero : half = 0
    · rw [hzero, Nat.zero_mul, Nat.log2_zero]
      omega
    · have hlog := (Nat.log2_lt hzero).mpr hlt
      rw [log2_mul_two_pow hzero]
      omega
  · rw [← Nat.pow_add, Nat.log2_two_pow]
    exact Nat.pow_dvd_pow 2 (by omega)

end Spacing

/-! ### Rounded units -/

/-- The multiple of its spacing that is nearest to a number of units. -/
def rounded (n : Nat) : Nat := roundDiv n (spacing n) * spacing n

section Rounded

variable {n k : Nat}

theorem roundDiv_spacing_le (n : Nat) : roundDiv n (spacing n) ≤ 2 ^ 53 := by
  have hle := roundDiv_mul_spacing_le n 1
  rwa [Nat.div_one, Nat.one_mul] at hle

theorem rounded_eq_self (h : spacing n ∣ n) : rounded n = n := roundDiv_mul_cancel (spacing_pos n) h

theorem rounded_mul_two_pow (hn : 2 ^ 52 ≤ n) (k : Nat) : rounded (n * 2 ^ k) = rounded n * 2 ^ k := by
  rw [rounded, rounded, spacing_mul_two_pow hn, roundDiv_mul_right n _ (Nat.two_pow_pos k), Nat.mul_assoc]

/-- What is at least a power of two is not rounded below it. -/
theorem two_pow_le_rounded (h : 2 ^ k ≤ n) : 2 ^ k ≤ rounded n := by
  have hne : n ≠ 0 := Nat.ne_of_gt (Nat.lt_of_lt_of_le (Nat.two_pow_pos k) h)
  have hround : n / spacing n ≤ roundDiv n (spacing n) := by
    rcases roundDiv_cases n (spacing n) with ⟨h, -⟩ | ⟨h, -⟩ | ⟨h, -⟩ <;> omega
  have hdvd : spacing n ∣ 2 ^ n.log2 := Nat.pow_dvd_pow 2 (Nat.sub_le _ _)
  calc 2 ^ k ≤ 2 ^ n.log2 := Nat.pow_le_pow_right Nat.two_pos ((Nat.le_log2 hne).mpr h)
    _ = 2 ^ n.log2 / spacing n * spacing n := (Nat.div_mul_cancel hdvd).symm
    _ ≤ roundDiv n (spacing n) * spacing n := by
      apply Nat.mul_le_mul_right
      exact Nat.le_trans (Nat.div_le_div_right (Nat.log2_self_le hne)) hround

/-- Less than half a spacing is lost. -/
theorem rounded_add (h : spacing n ∣ n) (hk : 2 * k < spacing n) : rounded (n + k) = n := by
  by_cases hne : n = 0
  · obtain rfl : k = 0 := by
      rw [hne, spacing, Nat.log2_zero] at hk
      omega
    exact rounded_eq_self h
  · have hsmall : k < spacing n := by omega
    have hspacing : spacing (n + k) = spacing n := by rw [spacing, log2_add h hne hsmall, spacing]
    calc rounded (n + k)
      _ = roundDiv (n / spacing n * spacing n + k) (spacing n) * spacing n := by
        rw [Nat.div_mul_cancel h, rounded, hspacing]
      _ = n := by rw [roundDiv_mul_add _ hk, Nat.div_mul_cancel h]

/-- Half the spacing of the greatest magnitudes. -/
def overflowMargin : Nat := 2 ^ (overflowBits - 54)

theorem overflowUnits_eq : overflowUnits = 2 ^ 53 * (2 * overflowMargin) := by
  have hbits : overflowBits = 53 + (overflowBits - 54 + 1) := by decide
  rw [overflowMargin, ← Nat.pow_succ', ← Nat.pow_add, ← hbits, overflowUnits]

theorem spacing_le_of_lt (h : n < overflowUnits) : spacing n ≤ 2 * overflowMargin := by
  have hlog : n.log2 - 52 ≤ overflowBits - 54 + 1 := by
    by_cases hne : n = 0
    · rw [hne, Nat.log2_zero]
      omega
    · have hlt : n.log2 < overflowBits := (Nat.log2_lt hne).mpr h
      omega
  rw [overflowMargin, ← Nat.pow_succ', spacing]
  exact Nat.pow_le_pow_right Nat.two_pos hlog

/-- Halfway from the greatest magnitude to the next power of two the result is that power. -/
theorem overflowUnits_le_rounded_iff : overflowUnits ≤ rounded n ↔ overflowUnits ≤ n + overflowMargin := by
  by_cases hrange : overflowUnits ≤ n
  · exact iff_of_true (two_pow_le_rounded hrange) (Nat.le_add_right_of_le hrange)
  obtain ⟨herror, heven⟩ := roundDiv_error n (spacing_pos n)
  rw [← rounded] at herror heven
  have hspacing := spacing_le_of_lt (Nat.not_le.mp hrange)
  constructor
  · intro h
    omega
  · intro h
    have hgreat : 2 ^ 52 * (2 * overflowMargin) ≤ n := by
      rw [overflowUnits_eq] at h
      omega
    have hspacing' : 2 * overflowMargin ≤ spacing n := by
      obtain ⟨k, hk⟩ : ∃ k, 2 * overflowMargin = 2 ^ k :=
        ⟨overflowBits - 54 + 1, by rw [overflowMargin, Nat.pow_succ']⟩
      rw [hk, ← Nat.pow_add] at hgreat
      exact hk ▸ Nat.le_of_dvd (spacing_pos n) (two_pow_dvd_spacing hgreat)
    have hunits : overflowUnits = 2 ^ 53 * spacing n := by
      rw [overflowUnits_eq, Nat.le_antisymm hspacing hspacing']
    -- The point of the grid below would be odd, and `n` is not nearer to it.
    refine Nat.not_lt.mp fun hlt => ?_
    have hbelow := add_le_of_dvd_of_lt (Nat.dvd_mul_left _ _) (hunits ▸ Nat.dvd_mul_left _ _) hlt
    rw [← rounded] at hbelow
    have hlast : roundDiv n (spacing n) + 1 = 2 ^ 53 := by
      refine Nat.eq_of_mul_eq_mul_right (spacing_pos n) ?_
      rw [Nat.succ_mul, ← hunits, ← rounded]
      omega
    have := heven (by omega)
    omega

end Rounded

namespace Magnitude

variable {n : Nat} {m m' : Magnitude}

theorem nearest?_eq_some_iff : nearest? n 1 = some m ↔ m.units = rounded n := by
  constructor
  · intro h
    have hunits := nearest?_eq_some h
    rwa [Nat.div_one, Nat.one_mul] at hunits
  · intro h
    have hrange : rounded n < overflowUnits := h ▸ m.representable.1
    obtain ⟨units, hrepresentable⟩ := m
    subst h
    simp only [nearest?, Nat.div_one, Nat.one_mul]
    exact dif_pos hrange

theorem nearest?_congr {k : Nat} (h : rounded k = rounded n) : nearest? k 1 = nearest? n 1 := by
  refine Option.ext fun m => ?_
  rw [nearest?_eq_some_iff, nearest?_eq_some_iff, h]

theorem nearest?_eq_none_iff : nearest? n 1 = none ↔ overflowUnits ≤ rounded n := by
  simp only [nearest?, Nat.div_one, Nat.one_mul]
  split
  · rename_i h
    exact iff_of_false (Option.some_ne_none _) (Nat.not_le.mpr h)
  · rename_i h
    exact iff_of_true rfl (Nat.le_of_not_lt h)

theorem nearest?_zero : nearest? 0 1 = some .zero :=
  nearest?_eq_some_iff.mpr (rounded_eq_self (Nat.dvd_zero _)).symm

theorem nearest?_mul_right (num den : Nat) {k : Nat} (hk : 0 < k) :
    nearest? (num * k) (den * k) = nearest? num den := by
  simp only [nearest?, Nat.mul_div_mul_right _ _ hk, Nat.mul_right_comm den k,
    roundDiv_mul_right _ _ hk]

/-- The difference to a number of units. -/
def distance (m : Magnitude) (n : Nat) : Nat := ((m.units : Int) - n).natAbs

/-- No magnitude is nearer to `n` units, and if another is equally near then this is the even one. -/
structure IsNearest (m : Magnitude) (n : Nat) : Prop where
  distance_le : ∀ m' : Magnitude, m.distance n ≤ m'.distance n
  isEven : ∀ m' : Magnitude, m' ≠ m → m'.distance n = m.distance n → IsEven m.units

/-- Some multiple of the spacing is as near as the magnitude, and nearer unless they are the same. -/
theorem exists_multiple_le_distance (m : Magnitude) (n : Nat) :
    ∃ k, ((k * spacing n : Nat) - (n : Int)).natAbs ≤ m.distance n ∧
      (m.distance n = ((k * spacing n : Nat) - (n : Int)).natAbs → m.units = k * spacing n) := by
  by_cases hlog : n.log2 ≤ m.units.log2
  · obtain ⟨k, hk⟩ := Nat.dvd_trans (spacing_dvd_spacing hlog) m.representable.2
    rw [Nat.mul_comm] at hk
    exact ⟨k, Nat.le_of_eq (by rw [distance, hk]), fun _ => hk⟩
  · -- A magnitude of fewer bits lies below the power of two that `n` is not below.
    have hne : n ≠ 0 := by
      rintro rfl
      rw [Nat.log2_zero] at hlog
      omega
    have hle := Nat.log2_self_le hne
    have hlt : m.units < 2 ^ n.log2 :=
      Nat.lt_of_lt_of_le Nat.lt_log2_self (Nat.pow_le_pow_right Nat.two_pos (by omega))
    have hdvd : spacing n ∣ 2 ^ n.log2 := Nat.pow_dvd_pow 2 (Nat.sub_le _ _)
    refine ⟨2 ^ n.log2 / spacing n, ?_⟩
    rw [Nat.div_mul_cancel hdvd, distance]
    omega

theorem isNearest_of_units_eq (h : m.units = rounded n) : m.IsNearest n := by
  have hspacing := spacing_pos n
  have hdistance : m.distance n = ((roundDiv n (spacing n) * spacing n : Nat) - (n : Int)).natAbs := by
    rw [distance, h, rounded]
  constructor
  · intro m'
    obtain ⟨k, hle, -⟩ := m'.exists_multiple_le_distance n
    exact hdistance ▸ Nat.le_trans (roundDiv_nearest n hspacing k) hle
  · intro m' hne heq
    obtain ⟨k, hle, hunits⟩ := m'.exists_multiple_le_distance n
    have hnearest := roundDiv_nearest n hspacing k
    have hk : k ≠ roundDiv n (spacing n) := by
      rintro rfl
      exact hne (eq_of_units_eq ((hunits (heq.trans hdistance)).trans h.symm))
    have heven := even_roundDiv_of_tie hspacing hk (by omega)
    rw [h]
    exact isEven_of_mod_two (roundDiv_spacing_le n) heven _

/-- The next magnitude, unless it is out of range. -/
theorem representable_next (m : Magnitude) (h : m.units + spacing m.units < overflowUnits) :
    Representable (m.units + spacing m.units) := by
  refine ⟨h, ?_⟩
  have hdvd : spacing m.units ∣ m.units := m.representable.2
  have hnext : m.units + spacing m.units = (m.units / spacing m.units + 1) * spacing m.units := by
    rw [Nat.succ_mul, Nat.div_mul_cancel hdvd]
  rw [hnext]
  exact pow_dvd_mul_of_le (div_spacing_lt m.units) _

theorem IsNearest.not_lt (h : m.IsNearest n) (h' : m'.IsNearest n) : ¬m.units < m'.units := by
  intro hlt
  have hne : m' ≠ m := fun heq => Nat.lt_irrefl _ (heq ▸ hlt)
  have htie : m.distance n = m'.distance n := Nat.le_antisymm (h.distance_le m') (h'.distance_le m)
  -- Both are even, so the magnitude next to the first lies between them.
  have heven : 2 * spacing m.units ∣ m.units := h.isEven m' hne htie.symm
  have heven' : 2 * spacing m.units ∣ m'.units :=
    Nat.dvd_trans (Nat.mul_dvd_mul_left 2 (spacing_dvd_spacing (log2_le_log2 (Nat.le_of_lt hlt))))
      (h'.isEven m hne.symm htie)
  have hgap := add_le_of_dvd_of_lt heven heven' hlt
  have hpos := spacing_pos m.units
  have hrange := m'.representable.1
  have hnearer := h.distance_le ⟨_, m.representable_next (by omega)⟩
  simp only [distance] at htie hnearer
  omega

theorem IsNearest.unique (h : m.IsNearest n) (h' : m'.IsNearest n) : m = m' :=
  eq_of_units_eq (Nat.le_antisymm (Nat.not_lt.mp (h'.not_lt h)) (Nat.not_lt.mp (h.not_lt h')))

end Magnitude

namespace Number

/-- The number is the nearest to a natural number, ties to even.  Beyond the greatest number, which is
`2 ^ 1024 - 2 ^ 971`, the next one would be `2 ^ 1024`, and from halfway on it is the infinity. -/
inductive IsRounded : Number → Nat → Prop
  | finite {m : Magnitude} {n : Nat} (hrange : n + 2 ^ 970 < 2 ^ 1024)
      (hnearest : m.IsNearest (n * unitsPerOne)) : IsRounded (finite false m) n
  | infinite {n : Nat} (hrange : 2 ^ 1024 ≤ n + 2 ^ 970) : IsRounded (infinite false) n

theorem finite_add_finite (m n : Magnitude) :
    (finite false m).add (finite false n) =
      ofMagnitude? false (Magnitude.nearest? (m.units + n.units) 1) := by
  have hadd : (finite false m).add (finite false n) =
      if (m.units : Int) + n.units = 0 then finite false .zero
      else ofRatio (decide ((m.units : Int) + n.units < 0)) ((m.units : Int) + n.units).natAbs 1 := rfl
  have hsign : ¬(m.units : Int) + n.units < 0 := by omega
  have hsum : ((m.units : Int) + n.units).natAbs = m.units + n.units := by omega
  rw [hadd, decide_eq_false hsign, hsum, ofRatio_eq]
  split
  · have hzero : m.units + n.units = 0 := by omega
    rw [hzero, Magnitude.nearest?_zero, ofMagnitude?]
  · rfl

theorem finite_mul_finite (m n : Magnitude) :
    (finite false m).mul (finite false n) =
      ofMagnitude? false (Magnitude.nearest? (m.units * n.units) unitsPerOne) := by
  have hmul : (finite false m).mul (finite false n) =
      ofRatio false (m.units * n.units) unitsPerOne := rfl
  rw [hmul, ofRatio_eq]

theorem overflowUnits_le_rounded_whole_iff {n : Nat} :
    overflowUnits ≤ rounded (n * unitsPerOne) ↔ 2 ^ 1024 ≤ n + 2 ^ 970 := by
  have hmargin : overflowMargin = 2 ^ 970 * unitsPerOne := by
    have hbits : 970 + oneBits = overflowBits - 54 := by decide
    rw [two_pow_mul_unitsPerOne, hbits, overflowMargin]
  rw [overflowUnits_le_rounded_iff, overflowUnits_eq_mul, hmargin, ← Nat.add_mul,
    Nat.mul_le_mul_right_iff unitsPerOne_pos]

theorem ofNat_eq_ofNat_iff {k n : Nat} :
    ofNat k = ofNat n ↔ rounded (k * unitsPerOne) = rounded (n * unitsPerOne) ∨
      overflowUnits ≤ rounded (k * unitsPerOne) ∧ overflowUnits ≤ rounded (n * unitsPerOne) := by
  rw [ofNat_eq, ofNat_eq, ← Magnitude.nearest?_eq_none_iff, ← Magnitude.nearest?_eq_none_iff]
  constructor
  · intro h
    cases hk : Magnitude.nearest? (k * unitsPerOne) 1 with
    | none =>
        cases hn : Magnitude.nearest? (n * unitsPerOne) 1 with
        | none => exact .inr ⟨rfl, rfl⟩
        | some m =>
            rw [hk, hn] at h
            cases h
    | some m =>
        rw [hk, ofMagnitude?, eq_comm, ofMagnitude?_eq_finite_iff] at h
        rw [Magnitude.nearest?_eq_some_iff] at hk h
        exact .inl (hk.symm.trans h)
  · rintro (h | ⟨hk, hn⟩)
    · rw [Magnitude.nearest?_congr h]
    · rw [hk, hn]

theorem isRounded_iff {x : Number} {n : Nat} : x.IsRounded n ↔ x = ofNat n := by
  rw [ofNat_eq]
  constructor
  · intro h
    cases h with
    | @finite m n hrange hnearest =>
        cases hround : Magnitude.nearest? (n * unitsPerOne) 1 with
        | none =>
            rw [Magnitude.nearest?_eq_none_iff, overflowUnits_le_rounded_whole_iff] at hround
            exact absurd hrange (Nat.not_lt.mpr hround)
        | some m' =>
            have hnearest' := Magnitude.isNearest_of_units_eq (Magnitude.nearest?_eq_some_iff.mp hround)
            rw [hnearest.unique hnearest', ofMagnitude?]
    | infinite hrange =>
        rw [Magnitude.nearest?_eq_none_iff.mpr (overflowUnits_le_rounded_whole_iff.mpr hrange),
          ofMagnitude?]
  · intro hx
    rw [hx]
    cases hround : Magnitude.nearest? (n * unitsPerOne) 1 with
    | none =>
        rw [Magnitude.nearest?_eq_none_iff, overflowUnits_le_rounded_whole_iff] at hround
        exact .infinite hround
    | some m =>
        have hunits := Magnitude.nearest?_eq_some_iff.mp hround
        have hrange : ¬overflowUnits ≤ rounded (n * unitsPerOne) :=
          Nat.not_le.mpr (hunits ▸ m.representable.1)
        rw [overflowUnits_le_rounded_whole_iff, Nat.not_le] at hrange
        exact .finite hrange (Magnitude.isNearest_of_units_eq hunits)

end Number

end JsonRules
