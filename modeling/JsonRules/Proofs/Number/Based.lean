import JsonRules.Proofs.Number.Whole
import JsonRules.Proofs.Number.Grammar

/-!
# Digits of other bases

Digits are appended to a number with a rounded product and a rounded sum each.  All bases are powers of
two, so products lose nothing, and sums are exact until the number has reached `2 ^ 53`.  From then on the
digits are too small to change it.  So the number read is the nearest to the value in which zeros take the
place of the digits that come too late.  It is the nearest to the value itself as well, unless these digits
were needed to see on which side of the middle between two numbers the value lies.
-/

namespace JsonRules

namespace Number

/-- The digits of all bases in their order. -/
def digitRow : List Char := "0123456789abcdef".toList

/-- The digit for which a character stands, in either case. -/
def digit (c : Char) : Nat := digitRow.idxOf c.toLower

namespace Base

/-- The value of digits with one more digit. -/
def append (base : Base) (n : Nat) (c : Char) : Nat := n * base.radix + digit c

def value (base : Base) (digits : List Char) : Nat := digits.foldl base.append 0

/-- A digit counts as zero where the value of those before it is `2 ^ 53` or more. -/
def appendKept (base : Base) (n : Nat) (c : Char) : Nat :=
  if n < wholeBound then base.append n c else n * base.radix

/-- The value with zeros for the digits that follow once `2 ^ 53` is reached. -/
def keptValue (base : Base) (digits : List Char) : Nat := digits.foldl base.appendKept 0

end Base

variable {base : Base} {digits : List Char}

theorem digitValue?_eq (hbase : base ∈ bases) {c : Char} (hc : c ∈ base.digits) :
    digitValue? base.radix c = some (digit c) ∧ digit c < base.radix := by
  have hall : ∀ base ∈ bases, (base.digits.all fun c =>
      digitValue? base.radix c = some (digit c) ∧ digit c < base.radix) = true := by
    decide
  exact of_decide_eq_true (List.all_eq_true.mp (hall base hbase) c hc)

theorem exists_radix_eq (hbase : base ∈ bases) : ∃ k ≤ 4, base.radix = 2 ^ k := by
  have hall : ∀ base ∈ bases, ∃ k ≤ 4, base.radix = 2 ^ k := by decide
  exact hall base hbase

/-! ### Steps -/

variable {n k d : Nat}

theorem ofNat_of_representable (h : Representable (n * unitsPerOne)) :
    ofNat n = finite false ⟨n * unitsPerOne, h⟩ := by
  have hround := Magnitude.nearest?_units_mul ⟨n * unitsPerOne, h⟩ Nat.one_pos
  rw [Nat.mul_one] at hround
  rw [ofNat_eq, hround, ofMagnitude?]

theorem rounded_whole_mul (n k : Nat) :
    rounded (n * 2 ^ k * unitsPerOne) = rounded (n * unitsPerOne) * 2 ^ k := by
  rw [Nat.mul_right_comm]
  by_cases hn : n = 0
  · rw [hn, Nat.zero_mul, Nat.zero_mul, rounded_eq_self (Nat.dvd_zero _), Nat.zero_mul]
  · refine rounded_mul_two_pow ?_ k
    calc 2 ^ 52 ≤ unitsPerOne := Nat.pow_le_pow_right Nat.two_pos (by decide)
      _ ≤ n * unitsPerOne := Nat.le_mul_of_pos_left _ (Nat.pos_of_ne_zero hn)

/-- A product with a power of two is rounded like its first factor. -/
theorem ofNat_mul_two_pow (n : Nat) (hk : 2 ^ k ≤ wholeBound) :
    (ofNat n).mul (ofNat (2 ^ k)) = ofNat (n * 2 ^ k) := by
  have hfactor := Magnitude.representable_whole hk
  rw [ofNat_of_representable hfactor, ofNat_eq, ofNat_eq (n * 2 ^ k)]
  have hround := rounded_whole_mul n k
  cases hfirst : Magnitude.nearest? (n * unitsPerOne) 1 with
  | none =>
      have hmul (m : Magnitude) : (infinite false).mul (finite false m) =
          if m.units = 0 then nan else infinite false := rfl
      have hne : 2 ^ k * unitsPerOne ≠ 0 :=
        Nat.mul_ne_zero (Nat.ne_of_gt (Nat.two_pow_pos k)) (Nat.ne_of_gt unitsPerOne_pos)
      have hproduct : Magnitude.nearest? (n * 2 ^ k * unitsPerOne) 1 = none := by
        rw [Magnitude.nearest?_eq_none_iff] at hfirst ⊢
        rw [hround]
        exact Nat.le_trans hfirst (Nat.le_mul_of_pos_right _ (Nat.two_pow_pos k))
      rw [ofMagnitude?, hmul, if_neg hne, hproduct, ofMagnitude?]
  | some m =>
      have hunits := Magnitude.nearest?_eq_some_iff.mp hfirst
      have hexact : rounded (m.units * 2 ^ k) = m.units * 2 ^ k :=
        rounded_eq_self (spacing_dvd_mul_two_pow m.representable.2 k)
      have hproduct : Magnitude.nearest? (m.units * (2 ^ k * unitsPerOne)) unitsPerOne =
          Magnitude.nearest? (m.units * 2 ^ k) 1 := by
        have hcancel := Magnitude.nearest?_mul_right (m.units * 2 ^ k) 1 unitsPerOne_pos
        rwa [Nat.one_mul, Nat.mul_assoc] at hcancel
      rw [ofMagnitude?, finite_mul_finite, hproduct]
      refine congrArg _ (Magnitude.nearest?_congr ?_)
      rw [hexact, hround, hunits]

/-- A sum that can be represented is exact. -/
theorem ofNat_add (hn : Representable (n * unitsPerOne)) (hd : Representable (d * unitsPerOne)) :
    (ofNat n).add (ofNat d) = ofNat (n + d) := by
  rw [ofNat_of_representable hn, ofNat_of_representable hd, finite_add_finite, ofNat_eq, Nat.add_mul]

/-- A number of `k` bits is lost in one of `54 + k` bits or more. -/
theorem ofNat_add_of_lt (hn : 2 ^ (53 + k) ≤ n) (hd : d < 2 ^ k) (hk : 2 ^ k ≤ wholeBound) :
    (ofNat n).add (ofNat d) = ofNat n := by
  have hsmall := Magnitude.representable_whole (Nat.le_trans (Nat.le_of_lt hd) hk)
  rw [ofNat_of_representable hsmall, ofNat_eq]
  cases hround : Magnitude.nearest? (n * unitsPerOne) 1 with
  | none => rfl
  | some m =>
      have hunits := Magnitude.nearest?_eq_some_iff.mp hround
      have hlarge : 2 ^ (52 + (1 + (k + oneBits))) ≤ m.units := by
        have hbits : 52 + (1 + (k + oneBits)) = 53 + k + oneBits := by omega
        have hle := Nat.mul_le_mul_right unitsPerOne hn
        rw [two_pow_mul_unitsPerOne] at hle
        rw [hunits, hbits]
        exact two_pow_le_rounded hle
      have hspacing : 2 * (d * unitsPerOne) < spacing m.units :=
        calc 2 * (d * unitsPerOne)
          _ < 2 * (2 ^ k * unitsPerOne) := by
            have hlt := Nat.mul_lt_mul_of_pos_right hd unitsPerOne_pos
            omega
          _ = 2 ^ (1 + (k + oneBits)) := by rw [two_pow_mul_unitsPerOne, Nat.pow_add 2 1, Nat.pow_one]
          _ ≤ spacing m.units := Nat.le_of_dvd (spacing_pos _) (two_pow_dvd_spacing hlarge)
      rw [ofMagnitude?, finite_add_finite, Magnitude.nearest?_eq_some_iff.mpr, ofMagnitude?]
      exact (rounded_add m.representable.2 hspacing).symm

/-- Appending a digit takes the nearest number to the nearest number, with a zero for the digit where
its place is beyond the bits that are kept. -/
theorem appendDigit_eq (hbase : base ∈ bases) (n : Nat) {c : Char} (hc : c ∈ base.digits) :
    ((ofNat n).mul (ofNat base.radix)).add (ofNat (digit c)) = ofNat (base.appendKept n c) := by
  obtain ⟨k, hk, hradix⟩ := exists_radix_eq hbase
  have hdigit : digit c < 2 ^ k := hradix ▸ (digitValue?_eq hbase hc).2
  have hbound : 2 ^ k ≤ wholeBound := Nat.pow_le_pow_right Nat.two_pos (by omega)
  rw [Base.appendKept, Base.append, hradix, ofNat_mul_two_pow n hbound]
  by_cases hn : n < wholeBound
  · have hbits : 53 + (k + oneBits) < overflowBits := by
      have hone : oneBits = 1074 := rfl
      have hoverflow : overflowBits = 2098 := rfl
      omega
    rw [if_pos hn]
    exact ofNat_add (Magnitude.representable_shifted (Nat.le_of_lt hn) hbits)
      (Magnitude.representable_whole (by omega))
  · rw [if_neg hn]
    refine ofNat_add_of_lt ?_ hdigit hbound
    rw [Nat.pow_add]
    exact Nat.mul_le_mul_right _ (Nat.not_lt.mp hn)

theorem appendDigits_eq (hbase : base ∈ bases) (n : Nat) (hdigits : ∀ c ∈ digits, c ∈ base.digits) :
    appendDigits base.radix (ofNat n) digits = ofNat (digits.foldl base.appendKept n) := by
  induction digits generalizing n with
  | nil => rfl
  | cons c rest ih =>
      obtain ⟨hc, hrest⟩ := List.forall_mem_cons.mp hdigits
      rw [appendDigits, (digitValue?_eq hbase hc).1, List.foldl_cons, ← ih _ hrest,
        ← appendDigit_eq hbase n hc]

theorem ofDigits_eq (hbase : base ∈ bases) (hne : digits ≠ [])
    (hdigits : ∀ c ∈ digits, c ∈ base.digits) :
    ofDigits base.radix digits = ofNat (base.keptValue digits) := by
  have hzero : zero = ofNat 0 := by rw [ofNat_eq, Nat.zero_mul, Magnitude.nearest?_zero]; rfl
  rw [ofDigits, if_neg (by simpa using hne), hzero, appendDigits_eq hbase 0 hdigits, Base.keptValue]

/-! ### Bits that are cut off -/

/-- In the middle of two multiples of the spacing, of which the lower one is even. -/
def TiesDown (n : Nat) : Prop := 2 * (n % spacing n) = spacing n ∧ n / spacing n % 2 = 0

instance (n : Nat) : Decidable (TiesDown n) := inferInstanceAs (Decidable (_ ∧ _))

theorem TiesDown.rounded_le (h : TiesDown n) : rounded n ≤ n := by
  obtain ⟨hmiddle, heven⟩ := h
  have hround : roundDiv n (spacing n) = n / spacing n := by
    have hcases := roundDiv_cases n (spacing n)
    omega
  rw [rounded, hround]
  exact Nat.div_mul_le_self n (spacing n)

/-- A number with zeros for its last `t` bits, with at least 53 bits and the next one before them. -/
structure Truncated (t k n : Nat) : Prop where
  two_pow_le : 2 ^ (53 + t) ≤ k
  dvd : 2 ^ t ∣ k
  le : k ≤ n
  lt : n < k + 2 ^ t

namespace Truncated

variable {t : Nat}

theorem wholeBound_le (h : Truncated t k n) : wholeBound ≤ k :=
  Nat.le_trans (Nat.pow_le_pow_right Nat.two_pos (Nat.le_add_right 53 t)) h.two_pow_le

theorem refl (h : wholeBound ≤ n) : Truncated 0 n n :=
  ⟨h, Nat.one_dvd n, Nat.le_refl n, Nat.lt_succ_self n⟩

theorem append {j d : Nat} (h : Truncated t k n) (hd : d < 2 ^ j) :
    Truncated (t + j) (k * 2 ^ j) (n * 2 ^ j + d) where
  two_pow_le := by
    rw [← Nat.add_assoc, Nat.pow_add]
    exact Nat.mul_le_mul_right _ h.two_pow_le
  dvd := by
    rw [Nat.pow_add]
    exact Nat.mul_dvd_mul_right h.dvd _
  le := Nat.le_add_right_of_le (Nat.mul_le_mul_right _ h.le)
  lt := by
    have hle := Nat.mul_le_mul_right (2 ^ j) (Nat.succ_le_of_lt h.lt)
    rw [Nat.succ_mul, Nat.add_mul, ← Nat.pow_add] at hle
    omega

theorem log2_eq (h : Truncated t k n) : n.log2 = k.log2 := by
  obtain ⟨r, rfl⟩ := Nat.exists_eq_add_of_le h.le
  have hpos := Nat.lt_of_lt_of_le (Nat.two_pow_pos _) h.two_pow_le
  exact log2_add h.dvd (Nat.ne_of_gt hpos) (Nat.lt_of_add_lt_add_left h.lt)

/-- What is cut off decides only where the rest is in the middle. -/
theorem roundDiv_eq (h : Truncated t k n) (hne : k ≠ n) :
    roundDiv n (spacing k) = roundDiv k (spacing k) + if TiesDown k then 1 else 0 := by
  obtain ⟨r, rfl⟩ := Nat.exists_eq_add_of_le h.le
  have hr : r < 2 ^ t := Nat.lt_of_add_lt_add_left h.lt
  have hpos := spacing_pos k
  have hstep : 2 * 2 ^ t ∣ spacing k := by
    have hbits : 52 + (t + 1) = 53 + t := by omega
    rw [← Nat.pow_succ']
    exact two_pow_dvd_spacing (hbits ▸ h.two_pow_le)
  have hdvd : 2 ^ t ∣ spacing k := Nat.dvd_trans (Nat.dvd_mul_left _ 2) hstep
  have hmod : 2 ^ t ∣ k % spacing k := (Nat.dvd_mod_iff hdvd).mpr h.dvd
  have hroom := add_le_of_dvd_of_lt hmod hdvd (Nat.mod_lt k hpos)
  have hbelow : 2 * (k % spacing k) < spacing k → 2 * (k % spacing k + r) < spacing k := by
    intro hlt
    have hgap := add_le_of_dvd_of_lt (Nat.mul_dvd_mul_left 2 hmod) hstep hlt
    omega
  obtain ⟨hquot, hrem⟩ : (k + r) / spacing k = k / spacing k ∧
      (k + r) % spacing k = k % spacing k + r := by
    refine (Nat.div_mod_unique hpos).mpr ⟨?_, by omega⟩
    have hdiv := Nat.mod_add_div k (spacing k)
    omega
  have hcases := roundDiv_cases (k + r) (spacing k)
  rw [hquot, hrem] at hcases
  by_cases hties : TiesDown k
  · obtain ⟨hmiddle, heven⟩ := hties
    have hcases' := roundDiv_cases k (spacing k)
    rw [if_pos ⟨hmiddle, heven⟩]
    omega
  · have hties' : 2 * (k % spacing k) = spacing k → k / spacing k % 2 = 1 := fun hmiddle =>
      (Nat.mod_two_eq_zero_or_one _).resolve_left fun heven => hties ⟨hmiddle, heven⟩
    have hcases' := roundDiv_cases k (spacing k)
    rw [if_neg hties]
    omega

theorem rounded_eq_iff (h : Truncated t k n) (hne : k ≠ n) : rounded k = rounded n ↔ ¬TiesDown k := by
  have hspacing : spacing n = spacing k := by rw [spacing, h.log2_eq, spacing]
  rw [rounded, rounded, hspacing, h.roundDiv_eq hne, Nat.mul_right_cancel_iff (spacing_pos k)]
  by_cases hties : TiesDown k <;> simp [hties]

theorem two_pow_le_iff (h : Truncated t k n) (i : Nat) : 2 ^ i ≤ k ↔ 2 ^ i ≤ n := by
  have hpos := Nat.lt_of_lt_of_le (Nat.two_pow_pos _) h.two_pow_le
  have hle := h.le
  rw [← Nat.le_log2 (by omega), ← Nat.le_log2 (by omega), h.log2_eq]

/-- The last bits can be missed only if all bits before them are those of a middle. -/
theorem ofNat_eq_iff (h : Truncated t k n) (hne : k ≠ n) :
    ofNat k = ofNat n ↔ ¬TiesDown k ∨ 2 ^ 1024 ≤ n := by
  have hlarge : 2 ^ 52 ≤ k := Nat.le_trans (Nat.pow_le_pow_right Nat.two_pos (by omega)) h.two_pow_le
  have hscale {i : Nat} (hi : 2 ^ 52 ≤ i) : rounded (i * unitsPerOne) = rounded i * unitsPerOne :=
    rounded_mul_two_pow hi oneBits
  rw [ofNat_eq_ofNat_iff, hscale hlarge, hscale (Nat.le_trans hlarge h.le), overflowUnits_eq_mul,
    Nat.mul_right_cancel_iff unitsPerOne_pos, Nat.mul_le_mul_right_iff unitsPerOne_pos,
    Nat.mul_le_mul_right_iff unitsPerOne_pos, h.rounded_eq_iff hne]
  refine or_congr_right' fun hties => ?_
  constructor
  · rintro ⟨hk, -⟩
    exact (h.two_pow_le_iff 1024).mp (Nat.le_trans hk (Decidable.not_not.mp hties).rounded_le)
  · intro hn
    exact ⟨two_pow_le_rounded ((h.two_pow_le_iff 1024).mpr hn), two_pow_le_rounded hn⟩

end Truncated

/-! ### Digits that come too late -/

/-- A digit more keeps what is cut off below the bits that count. -/
theorem truncated_append (hbase : base ∈ bases) {c : Char} (hc : c ∈ base.digits)
    (h : k = n ∨ ∃ t, Truncated t k n) :
    base.appendKept k c = base.append n c ∨
      ∃ t, Truncated t (base.appendKept k c) (base.append n c) := by
  obtain ⟨j, -, hradix⟩ := exists_radix_eq hbase
  have hdigit : digit c < 2 ^ j := hradix ▸ (digitValue?_eq hbase hc).2
  rw [Base.appendKept, Base.append, Base.append, hradix]
  by_cases hk : k < wholeBound
  · rcases h with rfl | ⟨t, ht⟩
    · exact .inl (if_pos hk)
    · exact absurd hk (Nat.not_lt.mpr ht.wholeBound_le)
  · obtain ⟨t, ht⟩ : ∃ t, Truncated t k n := by
      rcases h with rfl | h
      · exact ⟨0, .refl (Nat.not_lt.mp hk)⟩
      · exact h
    rw [if_neg hk]
    exact .inr ⟨t + j, ht.append hdigit⟩

theorem truncated_foldl (hbase : base ∈ bases) (hdigits : ∀ c ∈ digits, c ∈ base.digits)
    (h : k = n ∨ ∃ t, Truncated t k n) :
    digits.foldl base.appendKept k = digits.foldl base.append n ∨
      ∃ t, Truncated t (digits.foldl base.appendKept k) (digits.foldl base.append n) := by
  induction digits generalizing k n with
  | nil => exact h
  | cons c rest ih =>
      obtain ⟨hc, hrest⟩ := List.forall_mem_cons.mp hdigits
      exact ih hrest (truncated_append hbase hc h)

theorem truncated_keptValue (hbase : base ∈ bases) (hdigits : ∀ c ∈ digits, c ∈ base.digits) :
    base.keptValue digits = base.value digits ∨
      ∃ t, Truncated t (base.keptValue digits) (base.value digits) :=
  truncated_foldl hbase hdigits (.inl rfl)

theorem ofNat_keptValue_eq_iff (hbase : base ∈ bases) (hdigits : ∀ c ∈ digits, c ∈ base.digits) :
    ofNat (base.keptValue digits) = ofNat (base.value digits) ↔
      base.keptValue digits = base.value digits ∨ ¬TiesDown (base.keptValue digits) ∨
        2 ^ 1024 ≤ base.value digits := by
  by_cases hexact : base.keptValue digits = base.value digits
  · exact iff_of_true (congrArg ofNat hexact) (.inl hexact)
  · obtain ⟨t, ht⟩ := (truncated_keptValue hbase hdigits).resolve_left hexact
    rw [ht.ofNat_eq_iff hexact, or_iff_right hexact]

/-- Up to `2 ^ 53` no digit comes too late. -/
theorem keptValue_eq_value (hbase : base ∈ bases) (hdigits : ∀ c ∈ digits, c ∈ base.digits)
    (h : base.value digits ≤ 2 ^ 53) : base.keptValue digits = base.value digits := by
  rcases truncated_keptValue hbase hdigits with hexact | ⟨t, ht⟩
  · exact hexact
  · exact Nat.le_antisymm ht.le (Nat.le_trans h ht.wholeBound_le)

/-- Digits after the prefix of their base are read as the nearest number to their value with zeros for
the digits that come too late.  This is the nearest to their value exactly if none of these was needed, or
if the value is out of range anyway. -/
theorem ofText_based_laws (hbase : base ∈ bases) {letter : Char} (hletter : letter ∈ base.letters)
    (hne : digits ≠ []) (hdigits : ∀ c ∈ digits, c ∈ base.digits) {s : String}
    (hs : Text.trim s.toList = '0' :: letter :: digits) :
    (ofText s).IsRounded (base.keptValue digits) ∧
      ((ofText s).IsRounded (base.value digits) ↔
        base.keptValue digits = base.value digits ∨ ¬TiesDown (base.keptValue digits) ∨
          2 ^ 1024 ≤ base.value digits) ∧
      (base.value digits ≤ 2 ^ 53 → (ofText s).HasValue (base.value digits)) := by
  have hread : ofText s = ofNat (base.keptValue digits) := by
    rw [ofText, hs, ofTrimmed_based hbase hletter, ofDigits_eq hbase hne hdigits]
  rw [hread, isRounded_iff, isRounded_iff]
  refine ⟨rfl, ofNat_keptValue_eq_iff hbase hdigits, fun hsmall => ?_⟩
  rw [keptValue_eq_value hbase hdigits hsmall]
  exact HasValue.ofNat hsmall

/-- The last digit comes too late, but what is before it is no middle. -/
theorem ofText_based_laws_late :
    (hexadecimal.value "200000000000028".toList = 2 ^ 57 + 40 ∧
        (ofText "0x200000000000028").IsRounded (2 ^ 57 + 40)) ∧
      (ofText "\t0B101 ").HasValue 5 := by
  have hlate : ("200000000000028".toList.all fun c => c ∈ hexadecimal.digits) = true := by decide
  have hexact : ("101".toList.all fun c => c ∈ binary.digits) = true := by decide
  have htrim : Text.trim "0x200000000000028".toList = '0' :: 'x' :: "200000000000028".toList := by decide
  have htrim' : Text.trim "\t0B101 ".toList = '0' :: 'B' :: "101".toList := by decide
  have hvalue : hexadecimal.value "200000000000028".toList = 2 ^ 57 + 40 := by decide
  have hround := (ofText_based_laws (by decide) (by decide) (by decide)
    (fun c hc => of_decide_eq_true (List.all_eq_true.mp hlate c hc)) htrim).2.1
  have hsmall := (ofText_based_laws (by decide) (by decide) (by decide)
    (fun c hc => of_decide_eq_true (List.all_eq_true.mp hexact c hc)) htrim').2.2
  exact ⟨⟨hvalue, hvalue ▸ hround.mpr (.inr (.inl (by decide)))⟩, hsmall (by decide)⟩

/-- The last digit is the one that lifts the value above the middle, and it comes too late. -/
theorem ofText_not_isRounded :
    hexadecimal.value "200000000000018".toList = 2 ^ 57 + 24 ∧
      ofText "0x200000000000018" = ofNat (2 ^ 57) ∧
      (ofNat (2 ^ 57 + 32)).IsRounded (2 ^ 57 + 24) ∧
      ¬(ofText "0x200000000000018").IsRounded (2 ^ 57 + 24) := by
  have hread : ofText "0x200000000000018" = ofNat (2 ^ 57) := by decide +kernel
  rw [hread, isRounded_iff, isRounded_iff]
  decide +kernel

end Number

end JsonRules
