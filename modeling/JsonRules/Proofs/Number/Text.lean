import JsonRules.Proofs.Number.Grammar
import JsonRules.Proofs.Number.Layout
import JsonRules.Proofs.Number.Order
import JsonRules.Proofs.Number.Shortest
import JsonRules.Value.Equality

/-!
# Texts of numbers read back

A number is read from its text again, however the layout writes it: the text of a finite number is that
of a numeral for it, and zeros, infinities and not-a-number have texts of their own.  Only the sign of a
zero is lost, so the numbers with one text are the same or are the two zeros.
-/

namespace JsonRules

/-- What a layout writes is a numeral that stands for the number. -/
theorem Layout.exists_numeral_shortest (layout : Layout) (negative : Bool) {m : Magnitude}
    (h : m.units ≠ 0) :
    ∃ n : Numeral, n.Spells negative (layout.write (m.shortest layout.tie)) ∧
      n.toNumber = .finite negative m := by
  have hread := Magnitude.magnitude?_shortest layout.tie h
  have hne := Decimal.significand_ne_zero_of_magnitude? hread h
  obtain ⟨n, hspells, hdecimal⟩ := layout.exists_numeral negative hne
  -- Zeros up to the point add nothing to the value.
  have hmagnitude : n.decimal.magnitude? = some m := by
    rcases hdecimal with ⟨-, hdecimal⟩ | ⟨-, hexponent, -, hdecimal⟩
    · rw [hdecimal, hread]
    · have hfar := Decimal.exponent_le_of_magnitude? hread hne
      rw [hdecimal, Decimal.magnitude?_mul_pow hexponent hfar, hread]
  refine ⟨n, hspells, ?_⟩
  rw [Numeral.toNumber, Decimal.toNumber_eq, hmagnitude, hspells.isNegative_eq]
  rfl

namespace Number

theorem ofText_of_spelling {n : Numeral} {cs : List Char} (h : n.Spelling cs)
    (hdigits : n.hasDigits = true) : ofText (String.ofList cs) = n.toNumber := by
  have hblank : ∀ c ∈ cs, Text.isBlank c = false := fun c hc =>
    (isPlain_iff.mp (isPlain_of_isCharacter (h.isCharacter c hc))).1
  have htrim : Text.trim cs = cs :=
    Text.trim_eq_self (.of_forall hblank) (.of_forall fun c hc => hblank c (List.mem_reverse.mp hc))
  rw [ofText, String.toList_ofList, htrim, ofTrimmed_eq_of_spelling h (h.ne_nil hdigits),
    ofNumeral_eq h, if_pos hdigits]

theorem ofText_text (x : Number) : ofText x.text = if x.isZero then zero else x := by
  cases x with
  | nan => decide +kernel
  | infinite negative => cases negative <;> decide +kernel
  | finite negative m =>
      by_cases h : m.units = 0
      · rw [text, if_pos h, isZero, if_pos (beq_iff_eq.mpr h)]
        decide +kernel
      · obtain ⟨n, hspells, hnumber⟩ := textLayout.exists_numeral_shortest negative h
        have hread := ofText_of_spelling hspells.legible.spelling hspells.hasDigits
        rw [hspells.write_eq, hnumber] at hread
        rw [text, if_neg h, isZero, if_neg (by simpa using h)]
        exact hread

theorem text_of_isZero {x : Number} (h : x.isZero = true) : x.text = "0" := by
  cases x with
  | nan | infinite => cases h
  | finite negative m => exact if_pos (beq_iff_eq.mp h)

theorem eq_zero_of_isZero {x : Number} (h : x.isZero = true) : x.eq zero = true := by
  cases x with
  | nan | infinite => cases h
  | finite negative m =>
      obtain rfl := Magnitude.eq_zero_of_units (beq_iff_eq.mp h)
      cases negative <;> decide +kernel

theorem text_eq_text_iff {x y : Number} :
    x.text = y.text ↔ x = y ∨ x.isZero = true ∧ y.isZero = true := by
  constructor
  · intro h
    have hread := congrArg ofText h
    rw [ofText_text, ofText_text] at hread
    by_cases hx : x.isZero = true
    · by_cases hy : y.isZero = true
      · exact .inr ⟨hx, hy⟩
      · rw [if_pos hx, if_neg hy] at hread
        exact absurd (hread ▸ rfl) hy
    · by_cases hy : y.isZero = true
      · rw [if_neg hx, if_pos hy] at hread
        exact absurd (hread ▸ rfl) hx
      · rw [if_neg hx, if_neg hy] at hread
        exact .inl hread
  · rintro (rfl | ⟨hx, hy⟩)
    · rfl
    · rw [text_of_isZero hx, text_of_isZero hy]

/-- Reading the text of a number gives the number, and zero for both zeros.  So the text tells all
numbers apart but the two zeros, and a number is loosely equal to its text unless it is not-a-number. -/
theorem text_laws (x y : Number) :
    ofText x.text = (if x.isZero then zero else x) ∧
      (x.text = y.text ↔ x = y ∨ x.isZero = true ∧ y.isZero = true) ∧
      (Value.looseEq (.number x) (.string x.text) = true ↔ x ≠ nan) := by
  refine ⟨ofText_text x, text_eq_text_iff, ?_⟩
  rw [Value.looseEq, ofText_text]
  by_cases h : x.isZero = true
  · rw [if_pos h]
    exact iff_of_true (eq_zero_of_isZero h) fun hnan => by cases hnan ▸ h
  · rw [if_neg h]
    exact eq_self_iff

end Number

end JsonRules
