import JsonRules.Number.Text
import JsonRules.Proofs.Number.Nearest
import JsonRules.Proofs.Number.Numeral
import JsonRules.Proofs.Text.Blank

/-!
# The texts that are numbers

A text without blanks at its ends is a number if it is empty, names an infinity, has digits of another
base after the zero and the letter for that base, or is a decimal numeral with a digit before or after
its point.  Reading gives not-a-number for every other text, and for these texts only numbers.
-/

namespace JsonRules.Number

open Numeral (writeSign writeFraction ExponentText isSign)

/-- A base other than ten, with the letters that announce it and its digits. -/
structure Base where
  radix : Nat
  letters : List Char
  digits : List Char
  deriving DecidableEq

def hexadecimal : Base := ⟨16, ['x', 'X'], "0123456789abcdefABCDEF".toList⟩

def octal : Base := ⟨8, ['o', 'O'], "01234567".toList⟩

def binary : Base := ⟨2, ['b', 'B'], "01".toList⟩

def bases : List Base := [hexadecimal, octal, binary]

/-- Digits with or without a point, one of them at least. -/
inductive Mantissa : List Char → Prop
  | whole {digits : List Char} (hne : digits ≠ []) (hdigits : ∀ c ∈ digits, c.isDigit = true) :
      Mantissa digits
  | point {digits more : List Char} (hne : digits ≠ []) (hdigits : ∀ c ∈ digits, c.isDigit = true)
      (hmore : ∀ c ∈ more, c.isDigit = true) : Mantissa (digits ++ '.' :: more)
  | fraction {digits : List Char} (hne : digits ≠ []) (hdigits : ∀ c ∈ digits, c.isDigit = true) :
      Mantissa ('.' :: digits)

/-- The texts of numbers, without blanks around them. -/
inductive Written : List Char → Prop
  | empty : Written []
  | infinity (sign : Option Bool) : Written (writeSign sign ++ "Infinity".toList)
  | based {base : Base} (hbase : base ∈ bases) {letter : Char} (hletter : letter ∈ base.letters)
      {digits : List Char} (hne : digits ≠ []) (hdigits : ∀ c ∈ digits, c ∈ base.digits) :
      Written ('0' :: letter :: digits)
  | decimal (sign : Option Bool) {mantissa : List Char} (hmantissa : Mantissa mantissa)
      {exponent : Option (Option Bool × List Char)} {tail : List Char}
      (hexponent : ExponentText exponent tail) : Written (writeSign sign ++ (mantissa ++ tail))

/-- Texts that other formats take for numbers, or that are numbers but for a part or a character. -/
inductive Misspelled : List Char → Prop
  | word (sign : Option Bool) {c : Char} {rest : List Char} (hletter : c.isAlpha = true)
      (hword : c :: rest ≠ "Infinity".toList) : Misspelled (writeSign sign ++ c :: rest)
  | signedBase (negative : Bool) {base : Base} (hbase : base ∈ bases) {letter : Char}
      (hletter : letter ∈ base.letters) (digits : List Char) :
      Misspelled (writeSign (some negative) ++ '0' :: letter :: digits)
  | digitless (sign : Option Bool) {point : List Char} (hpoint : point = [] ∨ point = ['.'])
      {exponent : Option (Option Bool × List Char)} {tail : List Char}
      (hexponent : ExponentText exponent tail) (hne : writeSign sign ++ (point ++ tail) ≠ []) :
      Misspelled (writeSign sign ++ (point ++ tail))
  | character {cs : List Char} {c : Char} (hc : c ∈ cs)
      (hforeign : Text.isBlank c = true ∨ 128 ≤ c.toNat) : Misspelled cs

variable {base : Base} {letter : Char} {cs digits mantissa tail : List Char} {sign : Option Bool}
  {exponent : Option (Option Bool × List Char)} {n : Numeral}

/-! ### Digits of another base -/

/-- An ASCII character that is no blank. -/
def isPlain (c : Char) : Bool := !Text.isBlank c && decide (c.toNat < 128)

theorem isPlain_iff {c : Char} : isPlain c = true ↔ Text.isBlank c = false ∧ c.toNat < 128 := by
  simp [isPlain]

theorem isPlain_of_mem_base (hbase : base ∈ bases) {c : Char}
    (hc : c ∈ base.letters ++ base.digits) : isPlain c = true := by
  have hall : ∀ base ∈ bases, (base.letters ++ base.digits).all isPlain = true := by decide
  exact List.all_eq_true.mp (hall base hbase) c hc

/-- What holds of all code points below a bound, one by one. -/
@[elab_as_elim]
theorem of_forall_ofNat {p : Char → Prop} (bound : Nat) (h : ∀ n < bound, p (Char.ofNat n))
    (c : Char) (hc : c.toNat < bound) : p c := by
  have hp := h c.toNat hc
  rwa [Char.ofNat_toNat] at hp

theorem digitValue?_eq_none_of_le (radix : Nat) {c : Char} (h : 128 ≤ c.toNat) :
    digitValue? radix c = none := by
  have hdigit : ¬c.isDigit = true := by
    have hnine : '9'.toNat < 128 := by decide
    rw [Char.isDigit_iff_toNat]
    omega
  have hletter {d : Char} (hd : d.toNat < 128) : ¬c ≤ d := by
    rw [Char.le_def, UInt32.le_iff_toNat_le]
    exact Nat.not_le.mpr (Nat.lt_of_lt_of_le hd h)
  have hlower : ¬c ≤ 'z' := hletter (by decide)
  have hupper : ¬c ≤ 'Z' := hletter (by decide)
  simp [digitValue?, hdigit, hlower, hupper]

theorem isSome_digitValue?_iff (hbase : base ∈ bases) (c : Char) :
    (digitValue? base.radix c).isSome = true ↔ c ∈ base.digits := by
  by_cases hascii : c.toNat < 128
  · have hall : ∀ n < 128, ∀ base ∈ bases,
        (digitValue? base.radix (Char.ofNat n)).isSome = true ↔ Char.ofNat n ∈ base.digits := by
      decide +kernel
    exact of_forall_ofNat 128 (fun n hn => hall n hn base hbase) c hascii
  · rw [digitValue?_eq_none_of_le _ (Nat.not_lt.mp hascii)]
    exact iff_of_false Bool.false_ne_true fun hc =>
      hascii (isPlain_iff.mp (isPlain_of_mem_base hbase (List.mem_append_right _ hc))).2

theorem exists_add_ofMagnitude? (a b : Option Magnitude) :
    ∃ sum, (ofMagnitude? false a).add (ofMagnitude? false b) = ofMagnitude? false sum := by
  rcases a with _ | m
  · cases b <;> exact ⟨none, rfl⟩
  · rcases b with _ | n
    · exact ⟨none, rfl⟩
    · exact ⟨_, finite_add_finite m n⟩

theorem ofNat_radix : ∀ base ∈ bases,
    (ofNat base.radix).isFinite = true ∧ (ofNat base.radix).isZero = false := by
  decide +kernel

theorem exists_mul_ofNat (hbase : base ∈ bases) (a : Option Magnitude) :
    ∃ product, (ofMagnitude? false a).mul (ofNat base.radix) = ofMagnitude? false product := by
  obtain ⟨hfinite, hnonzero⟩ := ofNat_radix base hbase
  rw [ofNat_eq] at hfinite hnonzero ⊢
  generalize Magnitude.nearest? (base.radix * unitsPerOne) 1 = factor at *
  cases factor with
  | none => cases hfinite
  | some n =>
      have hn : n.units ≠ 0 := beq_eq_false_iff_ne.mp hnonzero
      cases a with
      | none => exact ⟨none, if_neg hn⟩
      | some m => exact ⟨_, finite_mul_finite m n⟩

/-- Digits appended to a number without a minus give such a number again. -/
theorem appendDigits_ne_nan_iff (hbase : base ∈ bases) (a : Option Magnitude)
    (digits : List Char) :
    appendDigits base.radix (ofMagnitude? false a) digits ≠ nan ↔ ∀ c ∈ digits, c ∈ base.digits := by
  induction digits generalizing a with
  | nil => exact iff_of_true (ofMagnitude?_ne_nan false a) fun _ hc => (List.not_mem_nil hc).elim
  | cons c digits ih =>
      have hc := isSome_digitValue?_iff hbase c
      rw [List.forall_mem_cons, appendDigits]
      cases hvalue : digitValue? base.radix c with
      | none =>
          rw [hvalue] at hc
          exact iff_of_false (fun h => h rfl) fun h => Bool.false_ne_true (hc.mpr h.1)
      | some d =>
          rw [hvalue] at hc
          obtain ⟨product, hproduct⟩ := exists_mul_ofNat hbase a
          obtain ⟨sum, hsum⟩ := exists_add_ofMagnitude? product (Magnitude.nearest? (d * unitsPerOne) 1)
          simp only [hproduct, ofNat_eq d, hsum, ih]
          exact (and_iff_right (hc.mp rfl)).symm

theorem ofDigits_ne_nan_iff (hbase : base ∈ bases) (digits : List Char) :
    ofDigits base.radix digits ≠ nan ↔ digits ≠ [] ∧ ∀ c ∈ digits, c ∈ base.digits := by
  rw [ofDigits]
  cases digits with
  | nil => exact iff_of_false (fun h => h rfl) fun h => h.1 rfl
  | cons c digits =>
      have hzero : zero = ofMagnitude? false (some .zero) := rfl
      rw [if_neg (by simp), hzero, appendDigits_ne_nan_iff hbase]
      exact (and_iff_right (List.cons_ne_nil c digits)).symm

/-! ### Decimal numerals -/

theorem mantissa_iff :
    Mantissa mantissa ↔ ∃ whole fraction, mantissa = whole ++ writeFraction fraction ∧
      (∀ c ∈ whole, c.isDigit = true) ∧ (∀ c ∈ fraction.getD [], c.isDigit = true) ∧
        whole ++ fraction.getD [] ≠ [] := by
  constructor
  · intro h
    cases h with
    | whole hne hdigits =>
        exact ⟨mantissa, none, by simp [writeFraction], hdigits, by simp, by simpa using hne⟩
    | @point digits more hne hdigits hmore =>
        exact ⟨digits, some more, rfl, hdigits, hmore, by simp [hne]⟩
    | @fraction digits hne hdigits => exact ⟨[], some digits, rfl, by simp, hdigits, hne⟩
  · rintro ⟨whole, fraction, rfl, hwhole, hfraction, hne⟩
    cases fraction with
    | none =>
        rw [writeFraction, List.append_nil]
        exact .whole (by simpa using hne) hwhole
    | some more =>
        by_cases hempty : whole = []
        · subst hempty
          exact .fraction hne hfraction
        · exact .point hempty hwhole hfraction

theorem toLower_ne_of_isCharacter {c : Char} (h : Numeral.isCharacter c = true) :
    c.toLower ≠ 'n' := by
  simp only [Numeral.isCharacter, Bool.or_eq_true, beq_iff_eq] at h
  rcases h with ((((hdigit | rfl) | rfl) | rfl) | rfl) | rfl
  · simp only [Char.isDigit, Bool.and_eq_true, decide_eq_true_eq] at hdigit
    have hlower : c.toLower = c :=
      dif_neg fun hupper => absurd (Nat.le_trans hupper.1 hdigit.2) (by decide)
    rw [hlower]
    rintro rfl
    revert hdigit
    decide
  all_goals decide

/-- No name is made of the characters of numerals, as there is an `n` in all of them. -/
theorem parse?_of_isCharacter (h : ∀ c ∈ cs, Numeral.isCharacter c = true) :
    parse? cs = (do
      let numeral ← Numeral.read? cs
      if numeral.hasDigits then some numeral.toNumber else none) := by
  have hrest : ∀ c ∈ (Numeral.readSign cs).2, c ∈ cs := by
    fun_cases Numeral.readSign cs with
    | case1 rest => exact fun c hc => List.mem_cons_of_mem _ hc
    | case2 rest => exact fun c hc => List.mem_cons_of_mem _ hc
    | case3 => exact fun c hc => hc
  have hname : ∀ name : List Char, 'n' ∈ name → (Numeral.readSign cs).2.map Char.toLower ≠ name := by
    rintro name hn rfl
    obtain ⟨c, hc, hlower⟩ := List.mem_map.mp hn
    exact toLower_ne_of_isCharacter (h c (hrest c hc)) hlower
  rw [parse?]
  dsimp only
  rw [if_neg (hname _ (by decide)), if_neg (not_or.mpr ⟨hname _ (by decide), hname _ (by decide)⟩)]

theorem ofNumeral_eq (h : n.Spelling cs) :
    ofNumeral cs = if n.hasDigits then n.toNumber else nan := by
  rw [ofNumeral, if_pos (List.all_eq_true.mpr h.isCharacter), parse?_of_isCharacter h.isCharacter,
    Numeral.read?_eq_some_iff.mpr h]
  cases hdigits : n.hasDigits with
  | true => simp [hdigits]
  | false => simp [hdigits]

theorem ofNumeral_ne_nan_iff :
    ofNumeral cs ≠ nan ↔ ∃ n : Numeral, n.Spelling cs ∧ n.hasDigits = true := by
  constructor
  · intro h
    by_cases hall : ∀ c ∈ cs, Numeral.isCharacter c = true
    · cases hread : Numeral.read? cs with
      | none =>
          rw [ofNumeral, parse?_of_isCharacter hall, hread] at h
          exact absurd (ite_self nan) h
      | some n =>
          have hspelling := Numeral.read?_eq_some_iff.mp hread
          exact ⟨n, hspelling, Decidable.not_not.mp fun hdigits =>
            h ((ofNumeral_eq hspelling).trans (if_neg hdigits))⟩
    · exact absurd (if_neg (hall ∘ List.all_eq_true.mp)) h
  · rintro ⟨n, hspelling, hdigits⟩
    rw [ofNumeral_eq hspelling, if_pos hdigits]
    exact Decimal.toNumber_ne_nan n.isNegative n.decimal

theorem written_of_spelling (h : n.Spelling cs) (hdigits : n.hasDigits = true) : Written cs := by
  cases h with
  | @parts sign whole fraction exponent tail hwhole hfraction hexponent =>
      have hne := Numeral.hasDigits_iff.mp hdigits
      have hmantissa := mantissa_iff.mpr ⟨whole, fraction, rfl, hwhole, hfraction, hne⟩
      rw [← List.append_assoc whole]
      exact .decimal sign hmantissa hexponent

theorem exists_spelling (sign : Option Bool) (hmantissa : Mantissa mantissa)
    (hexponent : ExponentText exponent tail) :
    ∃ n : Numeral, n.Spelling (writeSign sign ++ (mantissa ++ tail)) ∧ n.hasDigits = true := by
  obtain ⟨whole, fraction, rfl, hwhole, hfraction, hne⟩ := mantissa_iff.mp hmantissa
  rw [List.append_assoc]
  exact ⟨_, .parts sign hwhole hfraction hexponent, Numeral.hasDigits_iff.mpr hne⟩

/-! ### Reading -/

theorem ofTrimmed_infinity (sign : Option Bool) :
    ofTrimmed (writeSign sign ++ "Infinity".toList) = infinite (sign == some true) := by
  rcases sign with _ | _ | _ <;> decide +kernel

theorem ofTrimmed_based (hbase : base ∈ bases) (hletter : letter ∈ base.letters)
    (digits : List Char) :
    ofTrimmed ('0' :: letter :: digits) = ofDigits base.radix digits := by
  simp only [bases, List.mem_cons, List.not_mem_nil, or_false] at hbase
  rcases hbase with rfl | rfl | rfl <;>
    simp only [hexadecimal, octal, binary, List.mem_cons, List.not_mem_nil, or_false] at hletter <;>
    rcases hletter with rfl | rfl <;> rfl

/-- What is not empty, has no prefix of another base and names no infinity is read as a numeral. -/
theorem ofTrimmed_eq_ofNumeral (hne : cs ≠ [])
    (hbased : ∀ base ∈ bases, ∀ letter ∈ base.letters, ∀ digits, cs ≠ '0' :: letter :: digits)
    (hinfinity : ∀ sign, cs ≠ writeSign sign ++ "Infinity".toList) : ofTrimmed cs = ofNumeral cs := by
  fun_cases ofTrimmed cs with
  | case1 => exact absurd rfl hne
  | case2 digits => exact absurd rfl (hbased hexadecimal (by decide) 'x' (by decide) digits)
  | case3 digits => exact absurd rfl (hbased hexadecimal (by decide) 'X' (by decide) digits)
  | case4 digits => exact absurd rfl (hbased octal (by decide) 'o' (by decide) digits)
  | case5 digits => exact absurd rfl (hbased octal (by decide) 'O' (by decide) digits)
  | case6 digits => exact absurd rfl (hbased binary (by decide) 'b' (by decide) digits)
  | case7 digits => exact absurd rfl (hbased binary (by decide) 'B' (by decide) digits)
  | case8 cs _ _ _ _ _ _ _ hword =>
      rcases hword with rfl | rfl
      · exact absurd rfl (hinfinity none)
      · exact absurd rfl (hinfinity (some false))
  | case9 => exact absurd rfl (hinfinity (some true))
  | case10 => rfl

theorem isCharacter_eq_false (hbase : base ∈ bases) (hletter : letter ∈ base.letters) :
    Numeral.isCharacter letter = false := by
  have hall : ∀ base ∈ bases, (base.letters.all fun letter => !Numeral.isCharacter letter) = true := by
    decide
  exact (Bool.not_eq_true' _).mp (List.all_eq_true.mp (hall base hbase) letter hletter)

/-- The characters of a numeral are in no prefix and no word. -/
theorem ofTrimmed_eq_of_spelling (h : n.Spelling cs) (hne : cs ≠ []) :
    ofTrimmed cs = ofNumeral cs := by
  refine ofTrimmed_eq_ofNumeral hne ?_ ?_
  · rintro base hbase letter hletter digits rfl
    have hchar := h.isCharacter letter (List.mem_cons_of_mem _ List.mem_cons_self)
    rw [isCharacter_eq_false hbase hletter] at hchar
    cases hchar
  · rintro sign rfl
    cases h.isCharacter 'I' (List.mem_append_right _ List.mem_cons_self)

theorem ofTrimmed_ne_nan_iff : ofTrimmed cs ≠ nan ↔ Written cs := by
  constructor
  · intro h
    by_cases hempty : cs = []
    · exact hempty ▸ .empty
    by_cases hbased : ∃ base ∈ bases, ∃ letter ∈ base.letters, ∃ digits, cs = '0' :: letter :: digits
    · obtain ⟨base, hbase, letter, hletter, digits, rfl⟩ := hbased
      rw [ofTrimmed_based hbase hletter] at h
      obtain ⟨hne, hdigits⟩ := (ofDigits_ne_nan_iff hbase digits).mp h
      exact .based hbase hletter hne hdigits
    by_cases hinfinity : ∃ sign, cs = writeSign sign ++ "Infinity".toList
    · obtain ⟨sign, rfl⟩ := hinfinity
      exact .infinity sign
    have heq : ofTrimmed cs = ofNumeral cs :=
      ofTrimmed_eq_ofNumeral hempty
        (fun base hbase letter hletter digits hcs =>
          hbased ⟨base, hbase, letter, hletter, digits, hcs⟩)
        fun sign hcs => hinfinity ⟨sign, hcs⟩
    obtain ⟨n, hspelling, hdigits⟩ := ofNumeral_ne_nan_iff.mp (heq ▸ h)
    exact written_of_spelling hspelling hdigits
  · intro h
    cases h with
    | empty =>
        have hzero : ofTrimmed [] = zero := rfl
        rw [hzero, zero]
        exact fun h => by cases h
    | infinity sign =>
        rw [ofTrimmed_infinity]
        exact fun h => by cases h
    | based hbase hletter hne hdigits =>
        rw [ofTrimmed_based hbase hletter]
        exact (ofDigits_ne_nan_iff hbase _).mpr ⟨hne, hdigits⟩
    | decimal sign hmantissa hexponent =>
        obtain ⟨n, hspelling, hdigits⟩ := exists_spelling sign hmantissa hexponent
        rw [ofTrimmed_eq_of_spelling hspelling (hspelling.ne_nil hdigits)]
        exact ofNumeral_ne_nan_iff.mpr ⟨n, hspelling, hdigits⟩

/-! ### Refused texts -/

theorem Mantissa.head (h : Mantissa mantissa) :
    ∃ c rest, mantissa = c :: rest ∧ (c.isDigit = true ∨ c = '.') := by
  cases h with
  | fraction hne hdigits => exact ⟨'.', _, rfl, .inr rfl⟩
  | whole hne hdigits =>
      obtain ⟨c, rest, rfl⟩ := List.exists_cons_of_ne_nil hne
      exact ⟨c, rest, rfl, .inl (hdigits c List.mem_cons_self)⟩
  | point hne hdigits hmore =>
      obtain ⟨c, rest, rfl⟩ := List.exists_cons_of_ne_nil hne
      exact ⟨c, _, rfl, .inl (hdigits c List.mem_cons_self)⟩

/-- Behind the sign there is a digit, a point or the word for the infinities. -/
theorem Written.unsigned (h : Written cs) :
    cs = [] ∨ ∃ sign c rest, cs = writeSign sign ++ c :: rest ∧
      (c :: rest = "Infinity".toList ∨ c.isDigit = true ∨ c = '.') := by
  cases h with
  | empty => exact .inl rfl
  | infinity sign => exact .inr ⟨sign, 'I', "nfinity".toList, rfl, .inl rfl⟩
  | @based _ _ letter _ digits => exact .inr ⟨none, '0', letter :: digits, rfl, .inr (.inl rfl)⟩
  | decimal sign hmantissa hexponent =>
      obtain ⟨c, rest, rfl, hc⟩ := hmantissa.head
      exact .inr ⟨sign, c, _, rfl, .inr hc⟩

theorem isPlain_of_isCharacter {c : Char} (h : Numeral.isCharacter c = true) : isPlain c = true := by
  simp only [Numeral.isCharacter, Bool.or_eq_true, beq_iff_eq] at h
  rcases h with ((((h | rfl) | rfl) | rfl) | rfl) | rfl
  · have hzero : '0'.toNat = 48 := rfl
    have hnine : '9'.toNat = 57 := rfl
    rw [Char.isDigit_iff_toNat] at h
    simp [isPlain, Text.isBlank]
    omega
  all_goals decide

theorem Written.isPlain (h : Written cs) : ∀ c ∈ cs, isPlain c = true := by
  intro c hc
  cases h with
  | empty => cases hc
  | infinity sign =>
      rcases List.mem_append.mp hc with hc | hc
      · exact isPlain_of_isCharacter (Numeral.isCharacter_of_mem_writeSign c hc)
      · have hall : "Infinity".toList.all Number.isPlain = true := by decide
        exact List.all_eq_true.mp hall c hc
  | @based base hbase letter hletter digits hne hdigits =>
      rcases List.mem_cons.mp hc with rfl | hc
      · decide
      rcases List.mem_cons.mp hc with rfl | hc
      · exact isPlain_of_mem_base hbase (List.mem_append_left _ hletter)
      · exact isPlain_of_mem_base hbase (List.mem_append_right _ (hdigits c hc))
  | decimal sign hmantissa hexponent =>
      obtain ⟨n, hspelling, -⟩ := exists_spelling sign hmantissa hexponent
      exact isPlain_of_isCharacter (hspelling.isCharacter c hc)

theorem isAlpha_of_isDigit {c : Char} (h : c.isDigit = true) : c.isAlpha = false := by
  have hall : ∀ n < 58, (Char.ofNat n).isAlpha = false := by decide
  exact of_forall_ofNat 58 hall c (Nat.lt_succ_of_le (Char.isDigit_iff_toNat.mp h).2)

theorem not_written_word {c : Char} {rest : List Char}
    (hletter : c.isAlpha = true) (hword : c :: rest ≠ "Infinity".toList) :
    ¬Written (writeSign sign ++ c :: rest) := by
  intro h
  rcases h.unsigned with hnil | ⟨sign', c', rest', heq, hc⟩
  · cases (List.append_eq_nil_iff.mp hnil).2
  have hstops : StopsAt isSign (c :: rest) := .cons (Numeral.isSign_eq_false hletter rfl rfl)
  have hstops' : StopsAt isSign (c' :: rest') := by
    refine .cons ?_
    rcases hc with hinfinity | hdigit | rfl
    · rw [(List.cons.inj hinfinity).1]
      rfl
    · exact Numeral.isSign_eq_false hdigit rfl rfl
    · rfl
  obtain ⟨rfl, rfl⟩ := List.cons.inj (Numeral.writeSign_append_inj hstops hstops' heq).2
  rcases hc with hinfinity | hdigit | rfl
  · exact hword hinfinity
  · exact Bool.false_ne_true ((isAlpha_of_isDigit hdigit).symm.trans hletter)
  · cases hletter

theorem not_written_signedBase (negative : Bool) (hbase : base ∈ bases)
    (hletter : letter ∈ base.letters) (digits : List Char) :
    ¬Written (writeSign (some negative) ++ '0' :: letter :: digits) := by
  intro h
  generalize htext : writeSign (some negative) ++ '0' :: letter :: digits = text at h
  cases h with
  | empty => cases htext
  | infinity sign =>
      have hinj := Numeral.writeSign_append_inj (StopsAt.cons rfl) (StopsAt.cons rfl) htext
      cases hinj.2
  | based => cases negative <;> cases htext
  | decimal sign hmantissa hexponent =>
      obtain ⟨n, hspelling, -⟩ := exists_spelling sign hmantissa hexponent
      have hchar := hspelling.isCharacter letter (htext ▸ by simp)
      rw [isCharacter_eq_false hbase hletter] at hchar
      cases hchar

theorem not_written_digitless {point : List Char} (hpoint : point = [] ∨ point = ['.'])
    (hexponent : ExponentText exponent tail)
    (hne : writeSign sign ++ (point ++ tail) ≠ []) : ¬Written (writeSign sign ++ (point ++ tail)) := by
  have hspelling : ∃ fraction, (fraction.getD []).isEmpty = true ∧
      (⟨sign, [], fraction, exponent⟩ : Numeral).Spelling (writeSign sign ++ (point ++ tail)) := by
    rcases hpoint with rfl | rfl
    · exact ⟨none, rfl, .parts sign (by simp) (by simp) hexponent⟩
    · exact ⟨some [], rfl, .parts sign (by simp) (by simp) hexponent⟩
  obtain ⟨fraction, hempty, hspelling⟩ := hspelling
  rw [← ofTrimmed_ne_nan_iff, ofTrimmed_eq_of_spelling hspelling hne, ofNumeral_eq hspelling]
  simp [Numeral.hasDigits, hempty]

theorem Misspelled.not_written (h : Misspelled cs) : ¬Written cs := by
  cases h with
  | word sign hletter hword => exact not_written_word hletter hword
  | signedBase negative hbase hletter digits =>
      exact not_written_signedBase negative hbase hletter digits
  | digitless sign hpoint hexponent hne => exact not_written_digitless hpoint hexponent hne
  | @character _ c hc hforeign =>
      intro hwritten
      obtain ⟨hblank, hascii⟩ := isPlain_iff.mp (hwritten.isPlain c hc)
      rcases hforeign with hforeign | hforeign
      · exact Bool.false_ne_true (hblank.symm.trans hforeign)
      · exact absurd hascii (Nat.not_lt.mpr hforeign)

/-- Exactly the texts of the grammar are read as numbers, once the blanks around them are gone; the
misspelled ones are none of them. -/
theorem ofText_ne_nan_iff (s : String) :
    Text.Trimmed s.toList (Text.trim s.toList) ∧
      (ofText s ≠ nan ↔ Written (Text.trim s.toList)) ∧
      (Misspelled (Text.trim s.toList) → ofText s = nan) :=
  ⟨Text.trimmed_trim s.toList, ofTrimmed_ne_nan_iff, fun h =>
    Decidable.not_not.mp fun hne => h.not_written (ofTrimmed_ne_nan_iff.mp hne)⟩

theorem ofText_ne_nan_hexadecimal :
    (Written (Text.trim "\t0x1F ".toList) ∧ ofText "\t0x1F " ≠ nan) ∧
      Misspelled (Text.trim "\t-0x1F ".toList) ∧ ofText "\t-0x1F " = nan := by
  have hbase : hexadecimal ∈ bases := by decide
  have hletter : 'x' ∈ hexadecimal.letters := by decide
  have hdigits : ("1F".toList.all fun c => c ∈ hexadecimal.digits) = true := by decide
  have hunsigned : Text.trim "\t0x1F ".toList = '0' :: 'x' :: "1F".toList := by decide
  have hsigned : Text.trim "\t-0x1F ".toList = writeSign (some true) ++ '0' :: 'x' :: "1F".toList := by
    decide
  have hwritten : Written (Text.trim "\t0x1F ".toList) :=
    hunsigned ▸ .based hbase hletter (by decide) fun c hc =>
      of_decide_eq_true (List.all_eq_true.mp hdigits c hc)
  have hmisspelled : Misspelled (Text.trim "\t-0x1F ".toList) :=
    hsigned ▸ .signedBase true hbase hletter "1F".toList
  exact ⟨⟨hwritten, (ofText_ne_nan_iff "\t0x1F ").2.1.mpr hwritten⟩, hmisspelled,
    (ofText_ne_nan_iff "\t-0x1F ").2.2 hmisspelled⟩

end JsonRules.Number
