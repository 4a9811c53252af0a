import JsonRules.Proofs.Number.Numeral
import JsonRules.Number.Layout

/-!
# Written decimals as numerals

Both ways to write a decimal give the text of a numeral.  The numeral stands for the decimal itself,
unless all its places lie before the point: then it stands for the decimal with these places.
-/

namespace JsonRules

namespace Numeral

/-- Neither a point nor an exponent. -/
def IsWhole (n : Numeral) : Prop := n.fraction = none ∧ n.exponent = none

/-- A minus is written, a plus is not. -/
def signOf (negative : Bool) : Option Bool := if negative then some true else none

theorem writeSign_signOf (negative : Bool) :
    writeSign (signOf negative) = Layout.sign negative := by
  cases negative <;> rfl

/-- The numeral is written as the sign and the text, it starts with a zero only if that is all before the
point, and something follows a point. -/
structure Spells (n : Numeral) (negative : Bool) (text : List Char) : Prop where
  write_eq : n.write = Layout.sign negative ++ text
  legible : n.Legible
  sign_eq : n.sign = signOf negative
  whole_ne_nil : n.whole ≠ []
  leading : n.whole = ['0'] ∨ StopsAt (· == '0') n.whole
  fraction_ne : n.fraction ≠ some []

theorem Spells.isNegative_eq {n : Numeral} {negative : Bool} {text : List Char}
    (h : n.Spells negative text) : n.isNegative = negative := by
  rw [isNegative, h.sign_eq]
  cases negative <;> rfl

theorem Spells.hasDigits {n : Numeral} {negative : Bool} {text : List Char}
    (h : n.Spells negative text) : n.hasDigits = true :=
  hasDigits_iff.mpr (List.append_ne_nil_of_left_ne_nil h.whole_ne_nil _)

/-- The numeral of digits alone. -/
def ofDigits (negative : Bool) (digits : List Char) : Numeral :=
  ⟨signOf negative, digits, none, none⟩

theorem ofDigits_isWhole (negative : Bool) (digits : List Char) :
    (ofDigits negative digits).IsWhole := ⟨rfl, rfl⟩

theorem ofDigits_decimal (negative : Bool) (digits : List Char) :
    (ofDigits negative digits).decimal = ⟨Nat.ofDigitChars 10 digits 0, 0⟩ := by
  simp [decimal, ofDigits, exponentValue]

theorem ofDigits_spells (negative : Bool) {digits : List Char} (hne : digits ≠ [])
    (hdigits : ∀ c ∈ digits, c.isDigit = true)
    (hleading : digits = ['0'] ∨ StopsAt (· == '0') digits) :
    (ofDigits negative digits).Spells negative digits where
  write_eq := by
    simp [write, ofDigits, writeSign_signOf, writeFraction, writeExponent]
  legible := {
    whole := hdigits
    fraction := fun _ h => (List.not_mem_nil h).elim
    exponent := fun _ h => (Option.not_mem_none _ h).elim }
  sign_eq := rfl
  whole_ne_nil := hne
  leading := hleading
  fraction_ne := (Option.some_ne_none _).symm

end Numeral

theorem isDigit_of_mem_toDigits {n : Nat} : ∀ c ∈ Nat.toDigits 10 n, c.isDigit = true :=
  fun _ hc => Nat.isDigit_of_mem_toDigits (by decide) (by decide) hc

theorem isDigit_of_mem_zeros {n : Nat} : ∀ c ∈ List.replicate n '0', c.isDigit = true :=
  fun _ hc => List.eq_of_mem_replicate hc ▸ rfl

/-- The digits of a number other than zero do not start with a zero. -/
theorem stopsAt_toDigits {n : Nat} (h : n ≠ 0) : StopsAt (· == '0') (Nat.toDigits 10 n) := by
  induction n using Nat.strongRecOn with
  | ind n ih =>
      by_cases hsmall : n < 10
      · rw [Nat.toDigits_of_lt_base hsmall]
        exact .cons (beq_false_of_ne fun hzero => h (Nat.digitChar_eq_zero.mp hzero))
      · rw [Nat.toDigits_of_base_le (by decide) (Nat.le_of_not_lt hsmall)]
        exact (ih (n / 10) (by omega) (by omega)).append Nat.toDigits_ne_nil

theorem toDigits_leading (n : Nat) :
    Nat.toDigits 10 n = ['0'] ∨ StopsAt (· == '0') (Nat.toDigits 10 n) := by
  by_cases h : n = 0
  · exact .inl (h ▸ Nat.toDigits_zero 10)
  · exact .inr (stopsAt_toDigits h)

namespace Decimal

variable {d : Decimal}

theorem digits_length_pos (d : Decimal) : 0 < d.digits.length := Nat.length_toDigits_pos

theorem isDigit_of_mem_digits (d : Decimal) : ∀ c ∈ d.digits, c.isDigit = true :=
  isDigit_of_mem_toDigits

theorem ofDigitChars_digits (d : Decimal) : Nat.ofDigitChars 10 d.digits 0 = d.significand :=
  Nat.ofDigitChars_ten_toDigits

theorem stopsAt_digits (h : d.significand ≠ 0) : StopsAt (· == '0') d.digits :=
  stopsAt_toDigits h

/-- A point after the first `k` digits. -/
def pointAfter (negative : Bool) (d : Decimal) (k : Nat) : Numeral :=
  ⟨Numeral.signOf negative, d.digits.take k, some (d.digits.drop k), none⟩

theorem pointAfter_decimal {negative : Bool} {k : Nat} (hk : k ≤ d.digits.length)
    (hexponent : d.exponent = k - d.digits.length) : (pointAfter negative d k).decimal = d := by
  have hlength : (0 : Int) - ((d.digits.length - k : Nat) : Int) = d.exponent := by omega
  simp [Numeral.decimal, pointAfter, Numeral.exponentValue, ofDigitChars_digits, hlength]

theorem pointAfter_spells {negative : Bool} {k : Nat} (h : d.significand ≠ 0) (hk : 0 < k)
    (hlength : k < d.digits.length) :
    (pointAfter negative d k).Spells negative (d.digits.take k ++ '.' :: d.digits.drop k) where
  write_eq := by
    simp [Numeral.write, pointAfter, Numeral.writeSign_signOf, Numeral.writeFraction,
      Numeral.writeExponent]
  legible := {
    whole := fun c hc => d.isDigit_of_mem_digits c (List.mem_of_mem_take hc)
    fraction := fun c hc => d.isDigit_of_mem_digits c (List.mem_of_mem_drop hc)
    exponent := fun _ h => (Option.not_mem_none _ h).elim }
  sign_eq := rfl
  whole_ne_nil := by
    refine List.ne_nil_of_length_pos ?_
    rw [pointAfter, List.length_take]
    omega
  leading := .inr ((stopsAt_digits h).take k)
  fraction_ne := by
    simp [pointAfter]
    omega

/-- Zeros between the point and the digits. -/
def pointBefore (negative : Bool) (d : Decimal) (zeros : Nat) : Numeral :=
  ⟨Numeral.signOf negative, ['0'], some (List.replicate zeros '0' ++ d.digits), none⟩

theorem pointBefore_decimal {negative : Bool} {zeros : Nat}
    (hexponent : d.exponent = -(zeros + d.digits.length)) :
    (pointBefore negative d zeros).decimal = d := by
  have hlength : (0 : Int) - (zeros + d.digits.length) = d.exponent := by omega
  simp [Numeral.decimal, pointBefore, Numeral.exponentValue, Nat.ofDigitChars_append,
    Nat.ofDigitChars_cons, Nat.ofDigitChars_replicate_zero, ofDigitChars_digits, hlength]

theorem pointBefore_spells (negative : Bool) (d : Decimal) (zeros : Nat) :
    (pointBefore negative d zeros).Spells negative
      ('0' :: '.' :: (List.replicate zeros '0' ++ d.digits)) where
  write_eq := by
    simp [Numeral.write, pointBefore, Numeral.writeSign_signOf, Numeral.writeFraction,
      Numeral.writeExponent]
  legible := by
    refine ⟨fun c hc => ?_, fun c hc => ?_, fun _ h => (Option.not_mem_none _ h).elim⟩
    · rw [List.mem_singleton.mp hc]
      rfl
    · exact (List.mem_append.mp hc).elim (isDigit_of_mem_zeros c) (d.isDigit_of_mem_digits c)
  sign_eq := rfl
  whole_ne_nil := List.cons_ne_nil _ _
  leading := .inl rfl
  fraction_ne := by
    have hpos := d.digits_length_pos
    intro h
    have hlength := congrArg List.length (Option.some.inj h)
    simp only [List.length_append, List.length_nil] at hlength
    omega

/-- One digit before the point and an exponent. -/
def withExponent (negative : Bool) (d : Decimal) : Numeral where
  sign := Numeral.signOf negative
  whole := d.digits.take 1
  fraction := if (d.digits.drop 1).isEmpty then none else some (d.digits.drop 1)
  exponent :=
    some (some (decide (d.leadingExponent < 0)), Nat.toDigits 10 d.leadingExponent.natAbs)

theorem withExponent_fraction (negative : Bool) (d : Decimal) :
    (withExponent negative d).fraction.getD [] = d.digits.drop 1 := by
  rw [withExponent]
  split
  · rename_i hempty
    exact (List.isEmpty_iff.mp hempty).symm
  · rfl

theorem withExponent_decimal (negative : Bool) (d : Decimal) :
    (withExponent negative d).decimal = d := by
  have hvalue : (withExponent negative d).exponentValue = d.leadingExponent := by
    simp only [Numeral.exponentValue, withExponent, Nat.ofDigitChars_ten_toDigits,
      Option.some.injEq, decide_eq_true_eq]
    split <;> omega
  have hpos := d.digits_length_pos
  rw [Numeral.decimal, withExponent_fraction, hvalue]
  have hexponent : d.leadingExponent - ((d.digits.drop 1).length : Int) = d.exponent := by
    rw [leadingExponent, List.length_drop]
    omega
  rw [hexponent, withExponent, List.take_append_drop, ofDigitChars_digits]

theorem withExponent_spells (negative : Bool) (h : d.significand ≠ 0) :
    (withExponent negative d).Spells negative d.scientific where
  write_eq := by
    have hfraction : Numeral.writeFraction (withExponent negative d).fraction =
        if (d.digits.drop 1).isEmpty then [] else '.' :: d.digits.drop 1 := by
      rw [withExponent]
      split <;> rfl
    have hsign : Numeral.writeSign (withExponent negative d).sign = Layout.sign negative :=
      Numeral.writeSign_signOf negative
    rw [Numeral.write, hfraction, hsign]
    simp [withExponent, scientific, Numeral.writeExponent, Numeral.writeSign]
  legible := by
    refine ⟨fun c hc => d.isDigit_of_mem_digits c (List.mem_of_mem_take hc), fun c hc => ?_, ?_⟩
    · rw [withExponent_fraction] at hc
      exact d.isDigit_of_mem_digits c (List.mem_of_mem_drop hc)
    · intro exponent hexponent
      rw [← Option.some.inj hexponent]
      exact ⟨Nat.toDigits_ne_nil, isDigit_of_mem_toDigits⟩
  sign_eq := rfl
  whole_ne_nil := by
    have hpos := d.digits_length_pos
    refine List.ne_nil_of_length_pos ?_
    rw [withExponent, List.length_take]
    omega
  leading := .inr ((stopsAt_digits h).take 1)
  fraction_ne := by
    rw [withExponent]
    split
    · exact (Option.some_ne_none _).symm
    · rename_i hne
      intro hnil
      rw [Option.some.inj hnil] at hne
      exact hne rfl

/-- All places before the point. -/
def allPlaces (negative : Bool) (d : Decimal) : Numeral :=
  .ofDigits negative (d.digits ++ List.replicate d.exponent.toNat '0')

theorem allPlaces_decimal (negative : Bool) (d : Decimal) :
    (allPlaces negative d).decimal = ⟨d.significand * 10 ^ d.exponent.toNat, 0⟩ := by
  rw [allPlaces, Numeral.ofDigits_decimal, Nat.ofDigitChars_append, ofDigitChars_digits,
    Nat.ofDigitChars_replicate_zero, Nat.mul_comm]

theorem allPlaces_spells (negative : Bool) (h : d.significand ≠ 0) :
    (allPlaces negative d).Spells negative
      (d.digits ++ List.replicate d.exponent.toNat '0') := by
  have hne : d.digits ≠ [] := Nat.toDigits_ne_nil
  refine Numeral.ofDigits_spells negative (by simp [hne]) (fun c hc => ?_)
    (.inr ((stopsAt_digits h).append hne))
  exact (List.mem_append.mp hc).elim (d.isDigit_of_mem_digits c) (isDigit_of_mem_zeros c)

end Decimal

/-- What a layout writes is the text of a numeral, which stands for the decimal itself or, without point
and exponent, for the decimal with its zeros. -/
theorem Layout.exists_numeral (layout : Layout) (negative : Bool) {d : Decimal}
    (h : d.significand ≠ 0) :
    ∃ n : Numeral, n.Spells negative (layout.write d) ∧
      (¬n.IsWhole ∧ n.decimal = d ∨
        n.IsWhole ∧ 0 ≤ d.exponent ∧ d.leadingExponent ≤ layout.greatest ∧
          n.decimal = ⟨d.significand * 10 ^ d.exponent.toNat, 0⟩) := by
  have hpos := d.digits_length_pos
  rw [write]
  split
  · rename_i hrange
    rw [Decimal.positional]
    split
    · rename_i hexponent
      refine ⟨d.allPlaces negative, d.allPlaces_spells negative h, .inr ?_⟩
      exact ⟨Numeral.ofDigits_isWhole _ _, hexponent, hrange.2, d.allPlaces_decimal negative⟩
    · rename_i hexponent
      split
      · rename_i hpoint
        refine ⟨d.pointAfter negative (d.leadingExponent + 1).toNat,
          Decimal.pointAfter_spells h (by omega) ?_,
          .inl ⟨fun h => Option.some_ne_none _ h.1, Decimal.pointAfter_decimal ?_ ?_⟩⟩
        all_goals
          rw [Decimal.leadingExponent] at hpoint ⊢
          omega
      · rename_i hpoint
        refine ⟨d.pointBefore negative (-(d.leadingExponent + 1)).toNat,
          d.pointBefore_spells negative _,
          .inl ⟨fun h => Option.some_ne_none _ h.1, Decimal.pointBefore_decimal ?_⟩⟩
        rw [Decimal.leadingExponent] at hpoint ⊢
        omega
  · exact ⟨d.withExponent negative, d.withExponent_spells negative h,
      .inl ⟨fun h => Option.some_ne_none _ h.2, d.withExponent_decimal negative⟩⟩

end JsonRules
