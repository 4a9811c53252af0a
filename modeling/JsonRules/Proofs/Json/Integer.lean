import Std.Data.String.ToInt
import JsonRules.Proofs.Number.Whole
import JsonRules.Proofs.Json.Conversion

/-!
# Numbers written as integers

Numbers without fraction strictly between `-2 ^ 63` and `2 ^ 63` are handed over as these integers, in a
document and in JSON text.  Every other finite number is a real number in a document, and in the text it
has a point or an exponent.  This includes `-2 ^ 63`, the least integer of 64 bits.
-/

namespace JsonRules

variable {ν : Type}

namespace Number

variable {x : Number} {i : Int}

/-- The integer that is written is the value of the number. -/
theorem asInteger?_eq_some_iff {j : Int64} :
    x.asInteger? = some j ↔ x.HasValue j.toInt ∧ j.toInt.natAbs < 2 ^ 63 := by
  constructor
  · intro h
    cases x with
    | nan | infinite => cases h
    | finite negative m =>
        rw [asInteger?] at h
        split at h
        · rename_i hint
          have hcast : j.toInt = signedWhole negative m := by
            rw [← Option.some.inj h]
            exact toInt_of_lt hint.2
          rw [hcast, natAbs_signedWhole, wholePart]
          exact ⟨HasValue.of_isIntegral hint.1, Nat.div_lt_of_lt_mul (Nat.mul_comm .. ▸ hint.2)⟩
        · cases h
  · rintro ⟨hx, hj⟩
    obtain ⟨negative, m, rfl, -⟩ :=
      hx.exists_finite (HasValue.natAbs_lt_two_pow (l := 1024) (by decide) (Nat.le_of_lt hj))
    have hunits := hx.units_eq
    have hintegral : (finite negative m).isIntegral = true := by
      rw [isIntegral, hunits, Nat.mul_mod_left]
      rfl
    have hlimit : m.units < integerLimit := hunits ▸ Nat.mul_lt_mul_of_pos_right hj unitsPerOne_pos
    rw [asInteger?, if_pos ⟨hintegral, hlimit⟩]
    exact congrArg some (Int64.toInt_inj.mp (hx.toInt (by omega) (by omega)))

theorem exists_asInteger?_iff :
    (∃ j : Int64, x.asInteger? = some j ∧ j.toInt = i) ↔ x.HasValue i ∧ i.natAbs < 2 ^ 63 := by
  constructor
  · rintro ⟨j, hj, rfl⟩
    exact asInteger?_eq_some_iff.mp hj
  · rintro ⟨hx, hi⟩
    have hcast : x.toInt64.toInt = i := hx.toInt (by omega) (by omega)
    exact ⟨x.toInt64, asInteger?_eq_some_iff.mpr (hcast.symm ▸ ⟨hx, hi⟩), hcast⟩

theorem asInteger?_eq_none_iff :
    x.asInteger? = none ↔ ∀ i : Int, x.HasValue i → 2 ^ 63 ≤ i.natAbs := by
  constructor
  · intro h i hx
    refine Nat.le_of_not_lt fun hi => ?_
    obtain ⟨j, hj, -⟩ := exists_asInteger?_iff.mpr ⟨hx, hi⟩
    cases h.symm.trans hj
  · intro h
    cases hj : x.asInteger? with
    | none => rfl
    | some j =>
        obtain ⟨hx, hlt⟩ := asInteger?_eq_some_iff.mp hj
        exact absurd (h j.toInt hx) (Nat.not_le.mpr hlt)

/-- The number is handed over as the integer, and both texts are its digits. -/
structure WritesInteger (lib : Library ν) (x : Number) (i : Int) : Prop where
  document : ∃ j : Int64, j.toInt = i ∧ (Value.number x).toDocument lib = .number (lib.ofInt j)
  text : lib.text ((Value.number x).toDocument lib) = toString i
  display : (Value.number x).display lib = toString i

/-- The number is handed over as itself, and both texts are a numeral for it with a point or an exponent. -/
structure WritesReal (lib : Library ν) (x : Number) : Prop where
  document : ∃ n, lib.ofReal? x = some n ∧ (Value.number x).toDocument lib = .number n
  text : lib.text ((Value.number x).toDocument lib) = (Value.number x).display lib
  numeral : ∃ n : Numeral, n.Strict ∧ n.toNumber = x ∧
    ((Value.number x).display lib).toList = n.write
  mark : '.' ∈ ((Value.number x).display lib).toList ∨ 'e' ∈ ((Value.number x).display lib).toList

section Library

variable {lib : Library ν}

/-- What is not an integer is not written like one. -/
theorem exists_mem_display (hnumbers : lib.writer.WritesNumbers) (h : x.asInteger? = none) :
    ∃ c ∈ ((Value.number x).display lib).toList, c = '.' ∨ c = 'e' ∨ c = 'n' := by
  have hdisplay : (Value.number x).display lib = x.serialize lib.writer := rfl
  rw [hdisplay]
  cases hfinite : x.isFinite with
  | false =>
      rw [serialize_of_not_finite hfinite, hnumbers.unit]
      exact ⟨'n', by decide, .inr (.inr rfl)⟩
  | true =>
      obtain ⟨n, -, hwhole, -, hwrite⟩ := hnumbers.real x hfinite
      rw [serialize_of_none h hfinite, hwrite]
      rcases Numeral.mem_write_of_not_isWhole hwhole with hmem | hmem
      · exact ⟨'.', hmem, .inl rfl⟩
      · exact ⟨'e', hmem, .inr (.inl rfl)⟩

theorem display_of_asInteger? (hnumbers : lib.writer.WritesNumbers) {j : Int64}
    (h : x.asInteger? = some j) : (Value.number x).display lib = toString j.toInt :=
  (serialize_of_some h).trans (hnumbers.int j)

theorem writesInteger_iff (hkeeps : lib.KeepsNumbers) (halike : lib.WritesAlike)
    (hnumbers : lib.writer.WritesNumbers) :
    x.WritesInteger lib i ↔ ∃ j : Int64, x.asInteger? = some j ∧ j.toInt = i := by
  constructor
  · intro h
    cases hint : x.asInteger? with
    | some j =>
        exact ⟨j, rfl, Int.repr_inj.mp ((display_of_asInteger? hnumbers hint).symm.trans h.display)⟩
    | none =>
        obtain ⟨c, hc, hmark⟩ := exists_mem_display hnumbers hint
        exact absurd (h.display ▸ hc) (not_mem_toString hmark i)
  · rintro ⟨j, hint, rfl⟩
    have hdisplay := display_of_asInteger? hnumbers hint
    exact ⟨⟨j, rfl, toDocument_of_some hint⟩,
      (Value.text_toDocument hkeeps halike _).trans hdisplay, hdisplay⟩

theorem writesReal_iff (hkeeps : lib.KeepsNumbers) (halike : lib.WritesAlike)
    (hnumbers : lib.writer.WritesNumbers) :
    x.WritesReal lib ↔ x.isFinite = true ∧ x.asInteger? = none := by
  constructor
  · intro h
    constructor
    · cases hfinite : x.isFinite with
      | true => rfl
      | false =>
          obtain ⟨n, hn, -⟩ := h.document
          cases (hkeeps.ofReal?_eq_none x hfinite).symm.trans hn
    · cases hint : x.asInteger? with
      | none => rfl
      | some j =>
          have hmark := h.mark
          rw [display_of_asInteger? hnumbers hint] at hmark
          rcases hmark with hmem | hmem
          · exact absurd hmem (not_mem_toString (.inl rfl) _)
          · exact absurd hmem (not_mem_toString (.inr (.inl rfl)) _)
  · rintro ⟨hfinite, hint⟩
    obtain ⟨n, hn, -, hdocument⟩ := exists_toDocument_of_none hkeeps hint hfinite
    obtain ⟨p, hstrict, hwhole, hnumber, hwrite⟩ := hnumbers.real x hfinite
    have hdisplay : ((Value.number x).display lib).toList = p.write :=
      (congrArg String.toList (serialize_of_none hint hfinite)).trans hwrite
    exact ⟨⟨n, hn, hdocument⟩, Value.text_toDocument hkeeps halike _, ⟨p, hstrict, hnumber, hdisplay⟩,
      hdisplay ▸ Numeral.mem_write_of_not_isWhole hwhole⟩

/-- A number is written as an integer exactly if that is its value and lies strictly between the two ends.
All other finite numbers are written with a point or an exponent, the lower end among them, although it is
an integer of 64 bits. -/
theorem json_integer_laws (hkeeps : lib.KeepsNumbers) (halike : lib.WritesAlike)
    (hnumbers : lib.writer.WritesNumbers) (x : Number) :
    (∀ i : Int, x.WritesInteger lib i ↔ x.HasValue i ∧ -2 ^ 63 < i ∧ i < 2 ^ 63) ∧
      (x.WritesReal lib ↔
        x.isFinite = true ∧ ∀ i : Int, x.HasValue i → i ≤ -2 ^ 63 ∨ 2 ^ 63 ≤ i) := by
  have hrange (i : Int) : i.natAbs < 2 ^ 63 ↔ -2 ^ 63 < i ∧ i < 2 ^ 63 := by omega
  constructor
  · intro i
    rw [writesInteger_iff hkeeps halike hnumbers, exists_asInteger?_iff, hrange]
  · rw [writesReal_iff hkeeps halike hnumbers, asInteger?_eq_none_iff]
    refine and_congr_right' (forall₂_congr fun i _ => ?_)
    omega

end Library

/-- An integer beyond `2 ^ 53` and an infinity in the library in use. -/
theorem json_integer_laws_large :
    (ofInt (10 ^ 17)).WritesInteger Json.library (10 ^ 17) ∧
      ¬(infinite false).WritesReal Json.library := by
  have hlaws := json_integer_laws Json.library_keepsNumbers Json.library_writesAlike
    Json.writer_writesNumbers
  have hvalue : (ofInt (10 ^ 17)).HasValue (10 ^ 17) := by
    rw [HasValue]
    decide +kernel
  exact ⟨((hlaws _).1 _).mpr ⟨hvalue, by decide, by decide⟩,
    fun h => Bool.false_ne_true ((hlaws _).2.mp h).1⟩

/-- The sign of zero is not written. -/
example : (Value.number negativeZero).jsonText = "0" := by decide +kernel

theorem least_not_writesInteger :
    (ofInt (-2 ^ 63)).HasValue (-2 ^ 63) ∧ ¬(ofInt (-2 ^ 63)).WritesInteger Json.library (-2 ^ 63) ∧
      (Value.number (ofInt (-2 ^ 63))).jsonText = "-9.223372036854776e+18" := by
  have hvalue : (ofInt (-2 ^ 63)).HasValue (-2 ^ 63) := by
    rw [HasValue]
    decide +kernel
  have htext : (Value.number (ofInt (-2 ^ 63))).jsonText = "-9.223372036854776e+18" := by decide +kernel
  refine ⟨hvalue, fun h => ?_, htext⟩
  have hdigits := h.display
  rw [← Value.jsonText, htext] at hdigits
  revert hdigits
  decide

end Number

end JsonRules
