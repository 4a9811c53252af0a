import Mathlib.Algebra.Order.Ring.Int
import JsonRules.Proofs.Number.Decimal
import JsonRules.Proofs.Number.Nearest
import JsonRules.Proofs.Number.Order

/-!
# Numbers as integers

Integers up to `2 ^ 53` are numbers, and the integer part of a number is one.  Sums of integers are exact
within this range.  Beyond it they are rounded, but they stay beyond it, and a sum keeps its sign.  So
whatever is clamped to the range afterwards is what exact arithmetic gives.
-/

namespace JsonRules

/-- The integers with an infinity at either end. -/
inductive ExtendedInt where
  | minusInfinity
  | integer (i : Int)
  | plusInfinity
  deriving DecidableEq

/-- Up to this one all integers are numbers. -/
def wholeBound : Nat := 2 ^ 53

theorem wholeBound_mul : wholeBound * unitsPerOne = 2 ^ (53 + oneBits) := by
  rw [wholeBound, two_pow_mul_unitsPerOne]

theorem natCast_unitsPerOne_pos : (0 : Int) < unitsPerOne := Int.natCast_pos.mpr unitsPerOne_pos

namespace Magnitude

theorem representable_shifted {n k : Nat} (h : n ≤ wholeBound) (hk : 53 + (k + oneBits) < overflowBits) :
    Representable (n * 2 ^ k * unitsPerOne) := by
  rw [Nat.mul_assoc, two_pow_mul_unitsPerOne]
  constructor
  · calc n * 2 ^ (k + oneBits) ≤ wholeBound * 2 ^ (k + oneBits) := Nat.mul_le_mul_right _ h
      _ = 2 ^ (53 + (k + oneBits)) := by rw [wholeBound, ← Nat.pow_add]
      _ < overflowUnits := Nat.pow_lt_pow_right Nat.one_lt_two hk
  · exact pow_dvd_mul_of_le h _

theorem representable_whole {n : Nat} (h : n ≤ wholeBound) : Representable (n * unitsPerOne) := by
  have hshifted := representable_shifted (k := 0) h (by decide)
  rwa [Nat.pow_zero, Nat.mul_one] at hshifted

theorem representable_wholePart (m : Magnitude) :
    Representable (Number.wholePart m * unitsPerOne) := by
  rw [Number.wholePart]
  by_cases hspacing : m.units.log2 - 52 ≤ oneBits
  · have hlog : m.units.log2 + 1 ≤ 53 + oneBits := by omega
    have hunits : m.units < 2 ^ (53 + oneBits) :=
      Nat.lt_of_lt_of_le Nat.lt_log2_self (Nat.pow_le_pow_right Nat.two_pos hlog)
    rw [← two_pow_mul_unitsPerOne, ← Nat.div_lt_iff_lt_mul unitsPerOne_pos] at hunits
    exact representable_whole (Nat.le_of_lt hunits)
  · -- The spacing is a multiple of one, so the magnitude has no fraction.
    have hdvd : unitsPerOne ∣ 2 ^ (m.units.log2 - 52) := Nat.pow_dvd_pow 2 (by omega)
    rw [Nat.div_mul_cancel (Nat.dvd_trans hdvd m.representable.2)]
    exact m.representable

/-- What is at least a power of two is not rounded below it. -/
theorem le_units_of_nearest? {num k : Nat} {m : Magnitude} (h : nearest? num 1 = some m)
    (hk : 2 ^ k ≤ num) : 2 ^ k ≤ m.units :=
  nearest?_eq_some_iff.mp h ▸ two_pow_le_rounded hk

end Magnitude

namespace Number

/-- The integer part, the infinities being their own. -/
def whole? : Number → Option ExtendedInt
  | nan => none
  | infinite true => some .minusInfinity
  | infinite false => some .plusInfinity
  | finite negative m => some (.integer (signedWhole negative m))

theorem whole?_eq_none_iff {x : Number} : x.whole? = none ↔ x = nan := by
  cases x with
  | nan => exact iff_of_true rfl rfl
  | infinite negative => cases negative <;> simp [whole?]
  | finite negative m => simp [whole?]

theorem whole?_zero : zero.whole? = some (.integer 0) := by
  rw [zero, whole?, signedWhole_of_units_eq_zero rfl]

/-- The infinities have the place of an integer. -/
def infiniteWhole : Nat := 2 ^ 1024

theorem infiniteWhole_mul : infiniteWhole * unitsPerOne = overflowUnits := by
  rw [infiniteWhole, overflowUnits_eq_mul]

theorem wholeBound_lt_two_pow {k : Nat} (h : 53 < k) : wholeBound < 2 ^ k :=
  Nat.pow_lt_pow_right Nat.one_lt_two h

theorem wholeBound_lt_infiniteWhole : wholeBound < infiniteWhole :=
  wholeBound_lt_two_pow (k := 1024) (by decide)

/-- The value of the number is the integer. -/
def HasValue (x : Number) (i : Int) : Prop := x.place? = some (i * unitsPerOne)

section Place

variable {x y : Number} {a b : Int}

theorem isNaN_of_place? (hx : x.place? = some a) : x.isNaN = false := by
  cases x with
  | nan => cases hx
  | infinite | finite => rfl

theorem place?_min (hx : x.place? = some a) (hy : y.place? = some b) :
    (x.min y).place? = some (Min.min a b) := by
  rw [Number.min, isNaN_of_place? hx, Bool.false_or, lt_of_place? hy hx]
  by_cases h : b < a
  · rw [if_pos (decide_eq_true h), hy, Int.min_eq_right (by omega)]
  · rw [if_neg (by simpa using h), hx, Int.min_eq_left (by omega)]

theorem place?_max (hx : x.place? = some a) (hy : y.place? = some b) :
    (x.max y).place? = some (Max.max a b) := by
  rw [Number.max, isNaN_of_place? hx, Bool.false_or, lt_of_place? hx hy]
  by_cases h : a < b
  · rw [if_pos (decide_eq_true h), hy, Int.max_eq_right (by omega)]
  · rw [if_neg (by simpa using h), hx, Int.max_eq_left (by omega)]

theorem place?_infinite (negative : Bool) :
    (infinite negative).place? = some (if negative then -(overflowUnits : Int) else overflowUnits) :=
  rfl

/-- Rounding keeps the sign, changes nothing that can be represented, and does not go below a power of
two. -/
theorem exists_place?_ofRatio (negative : Bool) (n : Nat) :
    ∃ s : Nat, (ofRatio negative n 1).place? = some (if negative then -(s : Int) else s) ∧
      (Representable n → s = n) ∧ ∀ k, k ≤ overflowBits → 2 ^ k ≤ n → 2 ^ k ≤ s := by
  have hexact : ∀ hn : Representable n, Magnitude.nearest? n 1 = some ⟨n, hn⟩ := fun hn =>
    (congrArg (Magnitude.nearest? · 1) (Nat.mul_one n)).symm.trans
      (Magnitude.nearest?_units_mul ⟨n, hn⟩ Nat.one_pos)
  rw [ofRatio_eq]
  cases h : Magnitude.nearest? n 1 with
  | none =>
      refine ⟨overflowUnits, place?_infinite negative, fun hn => ?_, fun k hk _ => ?_⟩
      · cases h.symm.trans (hexact hn)
      · exact Nat.pow_le_pow_right Nat.two_pos hk
  | some m =>
      refine ⟨m.units, rfl, fun hn => ?_, fun k _ hk => ?_⟩
      · cases h.symm.trans (hexact hn)
        rfl
      · exact Magnitude.le_units_of_nearest? h hk

/-- A count is rounded only if it is out of range, and stays out of range then. -/
theorem exists_place?_ofNat (n : Nat) :
    ∃ s : Nat, (ofNat n).place? = some (s : Int) ∧ (n ≤ wholeBound → s = n * unitsPerOne) ∧
      (wholeBound ≤ n → wholeBound * unitsPerOne ≤ s) := by
  obtain ⟨s, hplace, hexact, hbeyond⟩ := exists_place?_ofRatio false (n * unitsPerOne)
  have hsign : decide ((n : Int) < 0) = false := by simp
  refine ⟨s, ?_, fun hn => hexact (Magnitude.representable_whole hn), fun hn => ?_⟩
  · rw [ofNat, ofInt, hsign, Int.natAbs_natCast]
    exact hplace
  · have hunits : wholeBound * unitsPerOne ≤ n * unitsPerOne := Nat.mul_le_mul_right unitsPerOne hn
    rw [wholeBound_mul] at hunits ⊢
    exact hbeyond (53 + oneBits) (by decide) hunits

/-- So a number is compared with the exact count, if one of them is in range. -/
theorem le_ofNat_iff {n : Nat} (hx : x.place? = some a)
    (hrange : n ≤ wholeBound ∨ a ≤ wholeBound * unitsPerOne) :
    x.le (ofNat n) = true ↔ a ≤ n * unitsPerOne := by
  obtain ⟨s, hplace, hexact, hbeyond⟩ := exists_place?_ofNat n
  have hle : x.le (ofNat n) = true ↔ a ≤ s := by
    rw [le_iff, hx, hplace]
    simp
  rw [hle]
  by_cases hn : n ≤ wholeBound
  · rw [hexact hn, Int.natCast_mul]
  · have hbound : wholeBound ≤ n := Nat.le_of_not_le hn
    have hunits : wholeBound * unitsPerOne ≤ n * unitsPerOne :=
      Nat.mul_le_mul_right unitsPerOne hbound
    have ha := hrange.resolve_left hn
    exact iff_of_true (Int.le_trans ha (Int.ofNat_le.mpr (hbeyond hbound)))
      (Int.le_trans ha (Int.ofNat_le.mpr hunits))

end Place

/-- What is known of a sum of integers that is rounded to `s` units. -/
structure SumRounds (sum s : Int) : Prop where
  exact : 0 ≤ sum → sum ≤ wholeBound → s = sum * unitsPerOne
  nonpos : sum ≤ 0 → s ≤ 0
  beyond : wholeBound ≤ sum → wholeBound * unitsPerOne ≤ s

section SumRounds

variable {i j : Int}

theorem sumRounds_plusInfinity (hi : 0 ≤ i) (hj : wholeBound < j) :
    SumRounds (i + j) (j * unitsPerOne) := by
  constructor
  · omega
  · omega
  · intro _
    exact Int.mul_le_mul_of_nonneg_right (Int.le_of_lt hj) (Int.natCast_nonneg _)

theorem sumRounds_minusInfinity (hi : i ≤ wholeBound) (hj : j < -wholeBound) :
    SumRounds (i + j) (j * unitsPerOne) := by
  constructor
  · omega
  · intro _
    exact Int.mul_nonpos_of_nonpos_of_nonneg (by omega) (Int.natCast_nonneg _)
  · omega

theorem sumRounds_ofRatio {sum s : Int} (hne : sum ≠ 0)
    (h : (ofRatio (decide (sum * unitsPerOne < 0)) (sum * unitsPerOne).natAbs 1).place? = some s) :
    SumRounds sum s := by
  obtain ⟨n, hplace, hexact, hbeyond⟩ :=
    exists_place?_ofRatio (decide (sum * unitsPerOne < 0)) (sum * unitsPerOne).natAbs
  have hs := Option.some.inj (h.symm.trans hplace)
  have hsign : sum * unitsPerOne < 0 ↔ sum < 0 := by
    simpa only [Int.zero_mul] using Int.mul_lt_mul_right (b := sum) (c := 0) natCast_unitsPerOne_pos
  simp only [decide_eq_true_eq, hsign] at hs
  rw [Int.natAbs_mul, Int.natAbs_natCast] at hexact hbeyond
  refine ⟨fun hpos hbound => ?_, fun hneg => ?_, fun hlarge => ?_⟩
  · rw [if_neg (by omega)] at hs
    rw [hs, hexact (Magnitude.representable_whole (by omega)), Int.natCast_mul,
      Int.natAbs_of_nonneg hpos]
  · rw [if_pos (by omega)] at hs
    omega
  · rw [if_neg (by omega)] at hs
    have hpow : wholeBound * unitsPerOne ≤ sum.natAbs * unitsPerOne :=
      Nat.mul_le_mul_right unitsPerOne (by omega)
    rw [wholeBound_mul] at hpow
    have hn := hbeyond (53 + oneBits) (by decide) hpow
    rw [← wholeBound_mul] at hn
    rw [hs, ← Int.natCast_mul]
    exact Int.ofNat_le.mpr hn

end SumRounds

theorem hasValue_infinite_false : (infinite false).HasValue infiniteWhole := by
  rw [HasValue, ← Int.natCast_mul, infiniteWhole_mul]
  exact place?_infinite false

theorem hasValue_infinite_true : (infinite true).HasValue (-infiniteWhole) := by
  rw [HasValue, Int.neg_mul, ← Int.natCast_mul, infiniteWhole_mul]
  exact place?_infinite true

namespace HasValue

variable {x y : Number} {i j : Int}

theorem unique (hx : x.HasValue i) (hx' : x.HasValue j) : i = j :=
  Int.eq_of_mul_eq_mul_right (Int.ne_of_gt natCast_unitsPerOne_pos) (Option.some.inj (hx.symm.trans hx'))

theorem zero : Number.zero.HasValue 0 := congrArg some (Int.zero_mul _).symm

theorem ofNat {n : Nat} (h : n ≤ wholeBound) : (Number.ofNat n).HasValue n := by
  obtain ⟨s, hplace, hexact, _⟩ := exists_place?_ofNat n
  rw [hexact h, Int.natCast_mul] at hplace
  exact hplace

theorem lt (hx : x.HasValue i) (hy : y.HasValue j) : x.lt y = decide (i < j) := by
  rw [lt_of_place? hx hy]
  exact decide_eq_decide.mpr (Int.mul_lt_mul_right natCast_unitsPerOne_pos)

theorem min (hx : x.HasValue i) (hy : y.HasValue j) : (x.min y).HasValue (Min.min i j) := by
  rw [HasValue, place?_min hx hy, min_mul_of_nonneg _ _ (Int.natCast_nonneg _)]

theorem max (hx : x.HasValue i) (hy : y.HasValue j) : (x.max y).HasValue (Max.max i j) := by
  rw [HasValue, place?_max hx hy, max_mul_of_nonneg _ _ (Int.natCast_nonneg _)]

theorem exists_finite (hx : x.HasValue i) (hi : i.natAbs < infiniteWhole) :
    ∃ negative m, x = finite negative m ∧ signedUnits negative m = i * unitsPerOne := by
  cases x with
  | nan => cases hx
  | infinite negative =>
      cases negative with
      | true =>
          have hwhole := unique hasValue_infinite_true hx
          omega
      | false =>
          have hwhole := unique hasValue_infinite_false hx
          omega
  | finite negative m => exact ⟨negative, m, rfl, Option.some.inj hx⟩

theorem signedWhole {negative : Bool} {m : Magnitude} (hx : (finite negative m).HasValue i) :
    signedWhole negative m = i := by
  have hunits : signedUnits negative m = i * unitsPerOne := Option.some.inj hx
  have hdiv : (wholePart m : Int) = (m.units : Int) / unitsPerOne := Int.natCast_ediv _ _
  cases negative with
  | true =>
      have hneg : (m.units : Int) = -i * unitsPerOne := by
        rw [Int.neg_mul, ← hunits, signedUnits, if_pos rfl, Int.neg_neg]
      rw [Number.signedWhole, if_pos rfl, hdiv, hneg,
        Int.mul_ediv_cancel _ (Int.ne_of_gt natCast_unitsPerOne_pos), Int.neg_neg]
  | false =>
      have hpos : (m.units : Int) = i * unitsPerOne := hunits
      rw [Number.signedWhole, if_neg Bool.false_ne_true, hdiv, hpos,
        Int.mul_ediv_cancel _ (Int.ne_of_gt natCast_unitsPerOne_pos)]

theorem natAbs_lt_two_pow {k l : Nat} (hk : k < l) (hi : i.natAbs ≤ 2 ^ k) : i.natAbs < 2 ^ l :=
  Nat.lt_of_le_of_lt hi (Nat.pow_lt_pow_right Nat.one_lt_two hk)

/-- The cast is exact within the range of 64 bits. -/
theorem toInt (hx : x.HasValue i) (hlow : -2 ^ 63 ≤ i) (hhigh : i < 2 ^ 63) : x.toInt = i := by
  have hrange : i.natAbs ≤ 2 ^ 63 := by omega
  obtain ⟨negative, m, rfl, -⟩ := hx.exists_finite (natAbs_lt_two_pow (l := 1024) (by decide) hrange)
  rw [Number.toInt, toInt64, hx.signedWhole]
  refine Int64.toInt_ofIntClamp ?_ ?_
  · rwa [Int64.toInt_minValue]
  · rw [Int64.toInt_maxValue]
    omega

theorem toNat {n : Nat} (hx : x.HasValue n) (hn : n ≤ wholeBound) : x.toNat = n := by
  have hrange : (n : Int).natAbs ≤ 2 ^ 53 := hn
  obtain ⟨negative, m, rfl, -⟩ := hx.exists_finite (natAbs_lt_two_pow (l := 1024) (by decide) hrange)
  rw [Number.toNat, hx.signedWhole, Int.toNat_natCast]
  exact Nat.min_eq_left (Nat.le_trans hn (by decide))

theorem units_eq {negative : Bool} {m : Magnitude} (hx : (finite negative m).HasValue i) :
    m.units = i.natAbs * unitsPerOne := by
  have hunits : signedUnits negative m = i * unitsPerOne := Option.some.inj hx
  have hnat : (signedUnits negative m).natAbs = m.units := by
    cases negative <;> simp [signedUnits]
  rw [← hnat, hunits, Int.natAbs_mul, Int.natAbs_natCast]

theorem of_isIntegral {negative : Bool} {m : Magnitude} (h : (finite negative m).isIntegral = true) :
    (finite negative m).HasValue (Number.signedWhole negative m) := by
  have hwhole : (wholePart m : Int) * unitsPerOne = m.units := by
    rw [← Int.natCast_mul, wholePart_mul h]
  cases negative with
  | true =>
      rw [HasValue, Number.signedWhole, if_pos rfl, Int.neg_mul, hwhole, place?, signedUnits, if_pos rfl]
  | false =>
      rw [HasValue, Number.signedWhole, if_neg Bool.false_ne_true, hwhole, place?, signedUnits,
        if_neg Bool.false_ne_true]

/-- Sums of integers are rounded only if they are out of range. -/
theorem exists_add (hx : x.HasValue i) (hy : y.HasValue j) (hi : 0 ≤ i) (hbound : i ≤ wholeBound) :
    ∃ s, (x.add y).place? = some s ∧ SumRounds (i + j) s := by
  have hinfinite := wholeBound_lt_infiniteWhole
  obtain ⟨a, m, rfl, hm⟩ := hx.exists_finite (by omega)
  cases y with
  | nan => cases hy
  | infinite b =>
      refine ⟨_, hy, ?_⟩
      cases b with
      | true =>
          rw [← unique hasValue_infinite_true hy]
          exact sumRounds_minusInfinity hbound (by omega)
      | false =>
          rw [← unique hasValue_infinite_false hy]
          exact sumRounds_plusInfinity hi (by omega)
  | finite b n =>
      have hsum : signedUnits a m + signedUnits b n = (i + j) * unitsPerOne := by
        rw [hm, Option.some.inj hy, Int.add_mul]
      by_cases hzero : i + j = 0
      · have hadd : (finite a m).add (finite b n) = finite (a && b) .zero := by
          rw [hzero, Int.zero_mul] at hsum
          simp only [add, hsum, if_true]
        refine ⟨0, ?_, ?_⟩
        · rw [hadd]
          cases a && b <;> rfl
        · rw [hzero]
          exact ⟨fun _ _ => (Int.zero_mul _).symm, fun _ => Int.le_refl 0, by decide⟩
      · have hne : (i + j) * unitsPerOne ≠ 0 :=
          Int.mul_ne_zero hzero (Int.ne_of_gt natCast_unitsPerOne_pos)
        have hadd : (finite a m).add (finite b n) =
            ofRatio (decide ((i + j) * unitsPerOne < 0)) ((i + j) * unitsPerOne).natAbs 1 := by
          simp only [add, hsum, if_neg hne]
        obtain ⟨s, hplace, _⟩ := exists_place?_ofRatio (decide ((i + j) * unitsPerOne < 0))
          ((i + j) * unitsPerOne).natAbs
        rw [hadd]
        exact ⟨_, hplace, sumRounds_ofRatio hzero hplace⟩

variable {z : Number} {k : Int}

/-- A sum that is not too large is exact if it is bounded from below afterwards. -/
theorem max_add (hx : x.HasValue i) (hy : y.HasValue j) (hz : z.HasValue k) (hi : 0 ≤ i)
    (hbound : i ≤ wholeBound) (hsum : i + j ≤ wholeBound) (hk : 0 ≤ k) :
    ((x.add y).max z).HasValue (Max.max (i + j) k) := by
  obtain ⟨s, hs, hrounds⟩ := hx.exists_add hy hi hbound
  by_cases hpos : 0 ≤ i + j
  · rw [hrounds.exact hpos hsum] at hs
    exact max hs hz
  · have hunits : 0 ≤ k * unitsPerOne := Int.mul_nonneg hk (Int.natCast_nonneg _)
    have hle : s ≤ k * unitsPerOne := Int.le_trans (hrounds.nonpos (by omega)) hunits
    rw [HasValue, place?_max hs hz, Int.max_eq_right hle, Int.max_eq_right (by omega)]

/-- A sum that is not negative is exact if it is bounded from above afterwards. -/
theorem min_add (hx : x.HasValue i) (hy : y.HasValue j) (hz : z.HasValue k) (hi : 0 ≤ i)
    (hbound : i ≤ wholeBound) (hsum : 0 ≤ i + j) (hk : k ≤ wholeBound) :
    ((x.add y).min z).HasValue (Min.min (i + j) k) := by
  obtain ⟨s, hs, hrounds⟩ := hx.exists_add hy hi hbound
  by_cases hle : i + j ≤ wholeBound
  · rw [hrounds.exact hsum hle] at hs
    exact min hs hz
  · have hunits : k * unitsPerOne ≤ wholeBound * unitsPerOne :=
      Int.mul_le_mul_of_nonneg_right hk (Int.natCast_nonneg _)
    have hge : k * unitsPerOne ≤ s := Int.le_trans hunits (hrounds.beyond (by omega))
    rw [HasValue, place?_min hs hz, Int.min_eq_right hge, Int.min_eq_right (by omega)]

end HasValue

/-- Whether an integer stands for an integer part: it is the same or, for an infinity, out of range. -/
inductive IsWhole : ExtendedInt → Int → Prop
  | integer (i : Int) : IsWhole (.integer i) i
  | minusInfinity {i : Int} (h : i < -wholeBound) : IsWhole .minusInfinity i
  | plusInfinity {i : Int} (h : wholeBound < i) : IsWhole .plusInfinity i

theorem exists_trunc {x : Number} {t : ExtendedInt} (h : x.whole? = some t) :
    ∃ i, x.trunc.HasValue i ∧ IsWhole t i := by
  have hinfinite : (wholeBound : Int) < infiniteWhole := Int.ofNat_lt.mpr wholeBound_lt_infiniteWhole
  cases x with
  | nan => cases h
  | infinite negative =>
      cases negative with
      | true =>
          cases h
          exact ⟨_, hasValue_infinite_true, .minusInfinity (by omega)⟩
      | false =>
          cases h
          exact ⟨_, hasValue_infinite_false, .plusInfinity hinfinite⟩
  | finite negative m =>
      cases h
      refine ⟨signedWhole negative m, ?_, .integer _⟩
      obtain ⟨s, hplace, hexact, _⟩ := exists_place?_ofRatio negative (wholePart m * unitsPerOne)
      rw [hexact m.representable_wholePart, Int.natCast_mul] at hplace
      rw [HasValue, trunc, hplace, signedWhole]
      cases negative with
      | true => rw [if_pos rfl, if_pos rfl, Int.neg_mul]
      | false => rw [if_neg Bool.false_ne_true, if_neg Bool.false_ne_true]

end Number

end JsonRules
