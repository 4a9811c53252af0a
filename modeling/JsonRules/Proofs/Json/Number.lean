import JsonRules.Proofs.Json.Grammar
import JsonRules.Proofs.Number.Nearest
import JsonRules.Proofs.Number.Text

/-!
# Numbers in JSON text

Integers are written as numerals without point and exponent, which stand for the nearest number, and
finite numbers as numerals that have one or the other and stand for the numbers themselves.
-/

namespace JsonRules

/-- A zero after the point adds nothing. -/
theorem Decimal.magnitude?_tenths (n : Nat) : magnitude? ⟨n * 10, -1⟩ = magnitude? ⟨n, 0⟩ := by
  by_cases hzero : n = 0
  · simp [magnitude?, hzero]
  · have hne : n * 10 ≠ 0 := by omega
    have hfar : ¬farExponent < -1 := by decide
    have hnear : ¬(-1 : Int) + (n * 10).log2 < -farExponent := by
      rw [farExponent]
      omega
    have hnegative : ¬(0 : Int) ≤ -1 := by decide
    have hcancel := Magnitude.nearest?_mul_right (n * unitsPerOne) 1 (k := 10) (by decide)
    rw [magnitude?_whole, ← hcancel, magnitude?, if_neg hne, if_neg hfar, if_neg hnear,
      if_neg hnegative, Nat.mul_right_comm]
    rfl

namespace Numeral

variable {n : Numeral}

theorem mem_write_of_not_isWhole (h : ¬n.IsWhole) : '.' ∈ n.write ∨ 'e' ∈ n.write := by
  obtain ⟨sign, whole, fraction, exponent⟩ := n
  cases fraction with
  | some digits => exact .inl (by simp [write, writeFraction])
  | none =>
      cases exponent with
      | some exponent => exact .inr (by simp [write, writeExponent])
      | none => exact absurd ⟨rfl, rfl⟩ h

/-- The numeral with a zero after the point. -/
def pointed (n : Numeral) : Numeral := { n with fraction := some ['0'] }

theorem pointed_not_isWhole (n : Numeral) : ¬n.pointed.IsWhole := fun h => by cases h.1

namespace IsWhole

theorem decimal_eq (h : n.IsWhole) : n.decimal = ⟨Nat.ofDigitChars 10 n.whole 0, 0⟩ := by
  simp [decimal, exponentValue, h.1, h.2]

theorem toNumber_eq (h : n.IsWhole) : n.toNumber =
    .ofMagnitude? n.isNegative (Magnitude.nearest? (n.decimal.significand * unitsPerOne) 1) := by
  rw [toNumber, Decimal.toNumber_eq, ← Decimal.magnitude?_whole, h.decimal_eq]

theorem write_eq (h : n.IsWhole) : n.write = writeSign n.sign ++ n.whole := by
  rw [write, h.1, h.2, writeFraction, writeExponent, List.append_nil, List.append_nil]

theorem pointed_write (h : n.IsWhole) : n.pointed.write = n.write ++ ".0".toList := by
  have hexponent : n.pointed.exponent = none := h.2
  rw [h.write_eq, write, hexponent, List.append_assoc]
  rfl

theorem pointed_toNumber (h : n.IsWhole) : n.pointed.toNumber = n.toNumber := by
  have hdecimal : n.pointed.decimal = ⟨Nat.ofDigitChars 10 n.whole 0 * 10, -1⟩ := by
    simp [decimal, exponentValue, pointed, h.2, Nat.ofDigitChars_append, Nat.ofDigitChars_cons,
      Nat.mul_comm]
  rw [toNumber, toNumber, Decimal.toNumber_eq, Decimal.toNumber_eq, hdecimal, h.decimal_eq,
    Decimal.magnitude?_tenths]
  rfl

end IsWhole

theorem Strict.pointed (h : n.Strict) (hwhole : n.IsWhole) : n.pointed.Strict where
  whole := h.whole
  fraction := fun c hc => List.mem_singleton.mp hc ▸ rfl
  exponent := fun exponent hexponent => by cases hwhole.2.symm.trans hexponent
  sign_ne := h.sign_ne
  whole_ne_nil := h.whole_ne_nil
  leading := h.leading
  fraction_ne := fun hnil => by cases hnil

theorem not_any_of_isWhole (h : n.Strict) (hwhole : n.IsWhole) :
    ¬(n.write.any fun c => c == '.' || c == 'e') = true := by
  have hmark : ∀ c ∈ n.whole, (c == '.' || c == 'e') = false := by
    intro c hc
    have hdigit := h.whole c hc
    by_cases hmark : c = '.' ∨ c = 'e'
    · rcases hmark with rfl | rfl <;> cases hdigit
    · simpa using hmark
  rw [hwhole.write_eq, List.any_append, Bool.or_eq_true, not_or]
  constructor
  · rcases n.sign with _ | _ | _ <;> decide
  · rw [List.any_eq_true]
    rintro ⟨c, hc, hc'⟩
    exact Bool.false_ne_true ((hmark c hc).symm.trans hc')

/-- With a point where there was neither a point nor an exponent, a text stands for the same number. -/
theorem Strict.exists_withPoint (h : n.Strict) :
    ∃ p : Numeral, p.Strict ∧ ¬p.IsWhole ∧ p.toNumber = n.toNumber ∧
      Number.withPoint n.write = p.write := by
  by_cases hwhole : n.IsWhole
  · refine ⟨n.pointed, h.pointed hwhole, n.pointed_not_isWhole, hwhole.pointed_toNumber, ?_⟩
    rw [Number.withPoint, if_neg (not_any_of_isWhole h hwhole), hwhole.pointed_write]
  · refine ⟨n, h, hwhole, rfl, if_pos (List.any_eq_true.mpr ?_)⟩
    rcases mem_write_of_not_isWhole hwhole with hmem | hmem
    · exact ⟨'.', hmem, rfl⟩
    · exact ⟨'e', hmem, rfl⟩

end Numeral

namespace Number

theorem toList_toString (i : Int) :
    (toString i).toList = Layout.sign (decide (i < 0)) ++ Nat.toDigits 10 i.natAbs := by
  cases i with
  | ofNat n =>
      have hsign : ¬(Int.ofNat n) < 0 := Int.not_lt.mpr (Int.natCast_nonneg n)
      have hrepr : toString (Int.ofNat n) = n.repr := rfl
      rw [hrepr, Nat.repr_eq_ofList_toDigits, String.toList_ofList, decide_eq_false hsign]
      rfl
  | negSucc n =>
      have hrepr : toString (Int.negSucc n) = "-" ++ (n + 1).repr := rfl
      have hdigits : (n + 1).repr.toList = Nat.toDigits 10 (n + 1) := by
        rw [Nat.repr_eq_ofList_toDigits, String.toList_ofList]
      rw [hrepr, String.toList_append, hdigits, decide_eq_true (Int.negSucc_lt_zero n)]
      rfl

/-- No digit and no sign is a mark of a number that is not an integer. -/
theorem not_mem_toString {c : Char} (h : c = '.' ∨ c = 'e' ∨ c = 'n') (i : Int) :
    c ∉ (toString i).toList := by
  have hdigit : c.isDigit = false ∧ c ≠ '-' := by
    rcases h with rfl | rfl | rfl <;> decide
  rw [toList_toString, List.mem_append, not_or]
  constructor
  · by_cases hi : i < 0
    · simpa [Layout.sign, hi] using hdigit.2
    · simp [Layout.sign, hi]
  · intro hc
    cases (isDigit_of_mem_toDigits c hc).symm.trans hdigit.1

/-- The digits of an integer stand for the nearest number. -/
theorem exists_numeral_toString (i : Int) :
    ∃ n : Numeral, n.Strict ∧ n.toNumber = .ofInt i ∧ (toString i).toList = n.write := by
  let n := Numeral.ofDigits (decide (i < 0)) (Nat.toDigits 10 i.natAbs)
  have hspells : n.Spells (decide (i < 0)) (Nat.toDigits 10 i.natAbs) :=
    Numeral.ofDigits_spells _ Nat.toDigits_ne_nil isDigit_of_mem_toDigits (toDigits_leading _)
  have hsignificand : n.decimal.significand = i.natAbs := by
    rw [Numeral.ofDigits_decimal, Nat.ofDigitChars_ten_toDigits]
  refine ⟨n, hspells.strict, ?_, (toList_toString i).trans hspells.write_eq.symm⟩
  rw [(Numeral.ofDigits_isWhole _ _).toNumber_eq, hspells.isNegative_eq, hsignificand, ofInt_eq]

theorem exists_numeral_writeReal {x : Number} (h : x.isFinite = true) :
    ∃ n : Numeral, n.Strict ∧ ¬n.IsWhole ∧ n.toNumber = x ∧ x.writeReal = n.write := by
  cases x with
  | nan | infinite => cases h
  | finite negative m =>
      rw [writeReal]
      by_cases hzero : m.units = 0
      · have hspells : (Numeral.ofDigits negative ['0']).Spells negative ['0'] :=
          Numeral.ofDigits_spells negative (List.cons_ne_nil _ _) (List.forall_mem_singleton.mpr rfl)
            (.inl rfl)
        obtain ⟨n, hstrict, hwhole, hnumber, hwrite⟩ := hspells.strict.exists_withPoint
        refine ⟨n, hstrict, hwhole, ?_, ?_⟩
        · rw [hnumber, Numeral.toNumber, Numeral.ofDigits_decimal, hspells.isNegative_eq,
            Magnitude.eq_zero_of_units hzero]
          rfl
        · rw [if_pos hzero, ← hwrite, hspells.write_eq]
      · obtain ⟨n, hspells, hread⟩ := jsonLayout.exists_numeral_shortest negative hzero
        obtain ⟨p, hstrict, hwhole, hnumber, hwrite⟩ := hspells.strict.exists_withPoint
        refine ⟨p, hstrict, hwhole, hnumber.trans hread, ?_⟩
        rw [if_neg hzero, ← hwrite, hspells.write_eq]
        rfl

end Number

namespace Json

theorem isStrict_of_strict {n : Numeral} (h : n.Strict) : isStrict n = true := by
  have hsign : (n.sign != some false) = true := bne_iff_ne.mpr h.sign_ne
  have hfraction : (n.fraction != some []) = true := bne_iff_ne.mpr h.fraction_ne
  rw [isStrict, hsign, hfraction]
  split
  · rename_i hnil
    exact absurd hnil h.whole_ne_nil
  · rfl
  · rename_i first rest hne hwhole
    rcases h.leading with hzero | hleading
    · rw [hwhole] at hzero
      obtain ⟨rfl, rfl⟩ := List.cons.inj hzero
      exact (hne rfl rfl).elim
    · rw [hwhole] at hleading
      have hfirst := hleading first rfl
      simp [bne, hfirst]

theorem ofNumeral?_of_strict {n : Numeral} (h : n.Strict) (hfinite : n.toNumber.isFinite = true) :
    ofNumeral? n = some (ofNumeral n) := by
  rw [ofNumeral?, isStrict_of_strict h, hfinite]
  rfl

/-- What needs no rounding is an integer with the sign and the digits of the numeral. -/
theorem isWhole_of_exactInt? {n : Numeral} {i : Int} (h : exactInt? n = some i) :
    n.IsWhole ∧ i.natAbs = n.decimal.significand ∧ decide (i < 0) = n.isNegative := by
  rw [exactInt?] at h
  split at h
  · rename_i hwhole
    refine ⟨by simpa [Numeral.IsWhole] using hwhole, ?_⟩
    dsimp only at h
    generalize hsigned : (if n.isNegative then -(n.decimal.significand : Int)
      else n.decimal.significand) = signed at h
    split at h
    · cases h
    · rename_i hexact
      obtain rfl := Option.some.inj h
      cases hnegative : n.isNegative with
      | true =>
          rw [hnegative, if_pos rfl] at hsigned
          have hne : signed ≠ 0 := fun hzero => hexact (by simp [hnegative, hzero])
          exact ⟨by omega, by simpa using (by omega : signed < 0)⟩
      | false =>
          rw [hnegative, if_neg Bool.false_ne_true] at hsigned
          exact ⟨by omega, by simpa using (by omega : 0 ≤ signed)⟩
  · cases h

theorem toReal_ofNumeral (n : Numeral) : (ofNumeral n).toReal = n.toNumber := by
  rw [ofNumeral]
  cases h : exactInt? n with
  | none => rfl
  | some i =>
      obtain ⟨hwhole, hsignificand, hsign⟩ := isWhole_of_exactInt? h
      rw [hwhole.toNumber_eq, ← hsignificand, ← hsign, ← Number.ofInt_eq]
      rfl

end Json

end JsonRules
