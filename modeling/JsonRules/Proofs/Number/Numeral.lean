import JsonRules.Number.Numeral

/-!
# Written numerals

A text spells a numeral if it has the numeral's parts one after the other: digits are digits, and the
exponent, after a letter in either case, has some.  Reading accepts these texts and gives the parts back.
Written with a small letter each numeral has one such text.
-/

namespace JsonRules

/-- The text is empty or starts with a character that is not in `p`. -/
def StopsAt (p : Char → Bool) (text : List Char) : Prop := ∀ c ∈ text.head?, p c = false

namespace StopsAt

variable {p : Char → Bool} {text rest : List Char}

theorem nil : StopsAt p [] := fun _ h => by cases h

theorem cons {c : Char} (h : p c = false) : StopsAt p (c :: rest) := fun _ hd => by
  cases hd
  exact h

theorem of_forall (h : ∀ c ∈ text, p c = false) : StopsAt p text :=
  fun c hc => h c (List.mem_of_mem_head? hc)

theorem append (hne : text ≠ []) (h : StopsAt p text) : StopsAt p (text ++ rest) := by
  cases text with
  | nil => exact absurd rfl hne
  | cons c text => exact .cons (h c rfl)

theorem of_append (h : StopsAt p (text ++ rest)) : StopsAt p text := by
  cases text with
  | nil => exact .nil
  | cons c text => exact .cons (h c rfl)

theorem take (h : StopsAt p text) (k : Nat) : StopsAt p (text.take k) := by
  cases text with
  | nil =>
      rw [List.take_nil]
      exact h
  | cons c text =>
      cases k with
      | zero => exact .nil
      | succ k => exact .cons (h c rfl)

theorem takeWhile_append (htext : ∀ c ∈ text, p c = true) (hrest : StopsAt p rest) :
    (text ++ rest).takeWhile p = text := by
  rw [List.takeWhile_append_of_pos htext]
  cases rest with
  | nil => exact List.append_nil text
  | cons c rest => rw [List.takeWhile_cons, hrest c rfl, if_neg (by decide), List.append_nil]

theorem dropWhile_append (htext : ∀ c ∈ text, p c = true) (hrest : StopsAt p rest) :
    (text ++ rest).dropWhile p = rest := by
  rw [List.dropWhile_append_of_pos htext]
  cases rest with
  | nil => rfl
  | cons c rest => rw [List.dropWhile_cons, hrest c rfl, if_neg (by decide)]

end StopsAt

namespace Numeral

def writeSign : Option Bool → List Char
  | none => []
  | some negative => [if negative then '-' else '+']

def writeFraction : Option (List Char) → List Char
  | none => []
  | some digits => '.' :: digits

def writeExponent : Option (Option Bool × List Char) → List Char
  | none => []
  | some (sign, digits) => 'e' :: (writeSign sign ++ digits)

def write (n : Numeral) : List Char :=
  writeSign n.sign ++ (n.whole ++ (writeFraction n.fraction ++ writeExponent n.exponent))

/-- Digits are digits, and an exponent has some. -/
structure Legible (n : Numeral) : Prop where
  whole : ∀ c ∈ n.whole, c.isDigit = true
  fraction : ∀ c ∈ n.fraction.getD [], c.isDigit = true
  exponent : ∀ exponent ∈ n.exponent, exponent.2 ≠ [] ∧ ∀ c ∈ exponent.2, c.isDigit = true

/-- The text of an exponent that may be absent. -/
inductive ExponentText : Option (Option Bool × List Char) → List Char → Prop
  | absent : ExponentText none []
  | present {letter : Char} (hletter : letter = 'e' ∨ letter = 'E') (sign : Option Bool)
      {digits : List Char} (hne : digits ≠ []) (hdigits : ∀ c ∈ digits, c.isDigit = true) :
      ExponentText (some (sign, digits)) (letter :: (writeSign sign ++ digits))

/-- The text has the parts of the numeral one after the other. -/
inductive Spelling : Numeral → List Char → Prop
  | parts (sign : Option Bool) {whole : List Char} {fraction : Option (List Char)}
      {exponent : Option (Option Bool × List Char)} {tail : List Char}
      (hwhole : ∀ c ∈ whole, c.isDigit = true)
      (hfraction : ∀ c ∈ fraction.getD [], c.isDigit = true)
      (hexponent : ExponentText exponent tail) :
      Spelling ⟨sign, whole, fraction, exponent⟩
        (writeSign sign ++ (whole ++ (writeFraction fraction ++ tail)))

theorem Legible.spelling {n : Numeral} (h : n.Legible) : n.Spelling n.write := by
  obtain ⟨sign, whole, fraction, exponent⟩ := n
  refine .parts sign h.whole h.fraction ?_
  cases exponent with
  | none => exact .absent
  | some exponent =>
      obtain ⟨hne, hdigits⟩ := h.exponent exponent rfl
      exact .present (.inl rfl) exponent.1 hne hdigits

theorem hasDigits_iff {n : Numeral} : n.hasDigits = true ↔ n.whole ++ n.fraction.getD [] ≠ [] := by
  rw [hasDigits, Bool.not_eq_true', List.isEmpty_eq_false_iff]

def isSign (c : Char) : Bool := c == '+' || c == '-'

theorem isSign_eq_false {p : Char → Bool} {c : Char} (h : p c = true) (hplus : p '+' = false)
    (hminus : p '-' = false) : isSign c = false := by
  cases hsign : isSign c with
  | false => rfl
  | true =>
      have hc : c = '+' ∨ c = '-' := by simpa [isSign] using hsign
      rcases hc with rfl | rfl
      · exact absurd (hplus.symm.trans h) Bool.false_ne_true
      · exact absurd (hminus.symm.trans h) Bool.false_ne_true

theorem readSign_append (sign : Option Bool) {rest : List Char} (h : StopsAt isSign rest) :
    readSign (writeSign sign ++ rest) = (sign, rest) := by
  cases sign with
  | some negative => cases negative <;> rfl
  | none =>
      cases rest with
      | nil => rfl
      | cons c rest =>
          have hc := h c rfl
          simp only [writeSign, List.nil_append, readSign]
          split
          · rename_i heq
            rw [(List.cons.inj heq).1] at hc
            exact absurd hc (by decide)
          · rename_i heq
            rw [(List.cons.inj heq).1] at hc
            exact absurd hc (by decide)
          · rfl

theorem writeSign_append_inj {sign sign' : Option Bool} {rest rest' : List Char}
    (h : StopsAt isSign rest) (h' : StopsAt isSign rest')
    (heq : writeSign sign ++ rest = writeSign sign' ++ rest') : sign = sign' ∧ rest = rest' := by
  have hread := (readSign_append sign h).symm.trans (heq ▸ readSign_append sign' h')
  exact Prod.mk.inj hread

theorem writeSign_readSign (cs : List Char) : writeSign (readSign cs).1 ++ (readSign cs).2 = cs := by
  fun_cases readSign cs <;> rfl

theorem stopsAt_of_digits {digits : List Char} (h : ∀ c ∈ digits, c.isDigit = true)
    {rest : List Char} (hrest : StopsAt isSign rest) : StopsAt isSign (digits ++ rest) := by
  cases digits with
  | nil => exact hrest
  | cons c digits => exact .cons (isSign_eq_false (h c List.mem_cons_self) rfl rfl)

theorem readExponent?_cons (letter : Char) (rest : List Char) :
    readExponent? (letter :: rest) =
      if letter = 'e' ∨ letter = 'E' then
        if (readSign rest).2 ≠ [] ∧ (readSign rest).2.all Char.isDigit then some (some (readSign rest))
        else none
      else none := rfl

section Exponent

variable {fraction : Option (List Char)} {exponent : Option (Option Bool × List Char)}
  {tail : List Char}

theorem readExponent?_eq_some_iff : readExponent? tail = some exponent ↔ ExponentText exponent tail := by
  constructor
  · intro h
    cases tail with
    | nil =>
        obtain rfl := Option.some.inj h
        exact .absent
    | cons letter rest =>
        rw [readExponent?_cons, Option.ite_none_right_eq_some, Option.ite_none_right_eq_some] at h
        obtain ⟨hletter, ⟨hne, hdigits⟩, h⟩ := h
        obtain rfl := Option.some.inj h
        have hpresent := ExponentText.present hletter (readSign rest).1 hne (List.all_eq_true.mp hdigits)
        rwa [writeSign_readSign] at hpresent
  · intro h
    cases h with
    | absent => rfl
    | @present letter hletter sign digits hne hdigits =>
        have hsign : readSign (writeSign sign ++ digits) = (sign, digits) := by
          refine readSign_append sign ?_
          have hstops := stopsAt_of_digits hdigits .nil
          rwa [List.append_nil] at hstops
        simp [readExponent?, hletter, hsign, hne, List.all_eq_true.mpr hdigits]

/-- An exponent starts with its letter. -/
theorem ExponentText.stopsAt (h : ExponentText exponent tail) {p : Char → Bool} (he : p 'e' = false)
    (hE : p 'E' = false) : StopsAt p tail := by
  cases h with
  | absent => exact .nil
  | present hletter => rcases hletter with rfl | rfl <;> exact .cons ‹_›

theorem stopsAt_writeFraction (fraction : Option (List Char)) (h : ExponentText exponent tail)
    {p : Char → Bool} (hpoint : p '.' = false) (he : p 'e' = false) (hE : p 'E' = false) :
    StopsAt p (writeFraction fraction ++ tail) := by
  cases fraction with
  | none => exact h.stopsAt he hE
  | some digits => exact .cons hpoint

theorem readFraction_append (hfraction : ∀ c ∈ fraction.getD [], c.isDigit = true)
    (h : ExponentText exponent tail) :
    readFraction (writeFraction fraction ++ tail) = (fraction, tail) := by
  cases fraction with
  | none =>
      cases h with
      | absent => rfl
      | present hletter => rcases hletter with rfl | rfl <;> rfl
  | some digits =>
      have hdigits : ∀ c ∈ digits, c.isDigit = true := hfraction
      have htail : StopsAt Char.isDigit tail := h.stopsAt rfl rfl
      simp only [writeFraction, List.cons_append, readFraction, htail.takeWhile_append hdigits,
        htail.dropWhile_append hdigits]

end Exponent

theorem writeFraction_readFraction (cs : List Char) :
    writeFraction (readFraction cs).1 ++ (readFraction cs).2 = cs ∧
      ∀ c ∈ (readFraction cs).1.getD [], c.isDigit = true := by
  fun_cases readFraction cs with
  | case1 rest =>
      exact ⟨congrArg _ List.takeWhile_append_dropWhile, List.all_eq_true.mp List.all_takeWhile⟩
  | case2 => exact ⟨rfl, fun c hc => (List.not_mem_nil hc).elim⟩

theorem read?_eq (cs : List Char) :
    read? cs =
      let digits := (readSign cs).2
      let fraction := readFraction (digits.dropWhile Char.isDigit)
      (readExponent? fraction.2).map fun exponent =>
        ⟨(readSign cs).1, digits.takeWhile Char.isDigit, fraction.1, exponent⟩ := rfl

/-- Reading accepts the texts that spell a numeral, and gives this numeral. -/
theorem read?_eq_some_iff {n : Numeral} {cs : List Char} : read? cs = some n ↔ n.Spelling cs := by
  constructor
  · intro h
    rw [read?_eq, Option.map_eq_some_iff] at h
    obtain ⟨exponent, hexponent, rfl⟩ := h
    obtain ⟨hfraction, hdigits⟩ :=
      writeFraction_readFraction ((readSign cs).2.dropWhile Char.isDigit)
    have hwhole : ∀ c ∈ (readSign cs).2.takeWhile Char.isDigit, c.isDigit = true :=
      List.all_eq_true.mp List.all_takeWhile
    have hspelling := Spelling.parts (readSign cs).1 hwhole hdigits
      (readExponent?_eq_some_iff.mp hexponent)
    rwa [hfraction, List.takeWhile_append_dropWhile, writeSign_readSign] at hspelling
  · intro h
    cases h with
    | @parts sign whole fraction exponent tail hwhole hfraction hexponent =>
        have hdigits : StopsAt Char.isDigit (writeFraction fraction ++ tail) :=
          stopsAt_writeFraction fraction hexponent rfl rfl rfl
        have hsign : StopsAt isSign (whole ++ (writeFraction fraction ++ tail)) :=
          stopsAt_of_digits hwhole (stopsAt_writeFraction fraction hexponent rfl rfl rfl)
        simp only [read?_eq, readSign_append sign hsign, hdigits.takeWhile_append hwhole,
          hdigits.dropWhile_append hwhole, readFraction_append hfraction hexponent,
          readExponent?_eq_some_iff.mpr hexponent, Option.map_some]

theorem Spelling.ne_nil {n : Numeral} {text : List Char} (h : n.Spelling text)
    (hdigits : n.hasDigits = true) : text ≠ [] := by
  rintro rfl
  obtain rfl := Option.some.inj (read?_eq_some_iff.mpr h)
  cases hdigits

/-! ### The characters of numerals -/

theorem isCharacter_of_isDigit {c : Char} (h : c.isDigit = true) : isCharacter c = true := by
  simp [isCharacter, h]

theorem isCharacter_of_mem_writeSign {sign : Option Bool} :
    ∀ c ∈ writeSign sign, isCharacter c = true := by
  intro c hc
  cases sign with
  | none => cases hc
  | some negative =>
      rw [List.mem_singleton.mp hc]
      cases negative <;> rfl

theorem isCharacter_of_mem_writeFraction {fraction : Option (List Char)}
    (h : ∀ c ∈ fraction.getD [], c.isDigit = true) :
    ∀ c ∈ writeFraction fraction, isCharacter c = true := by
  intro c hc
  cases fraction with
  | none => cases hc
  | some digits =>
      rcases List.mem_cons.mp hc with rfl | hc
      · rfl
      · exact isCharacter_of_isDigit (h c hc)

theorem ExponentText.isCharacter {exponent : Option (Option Bool × List Char)} {tail : List Char}
    (h : ExponentText exponent tail) : ∀ c ∈ tail, isCharacter c = true := by
  intro c hc
  cases h with
  | absent => cases hc
  | present hletter sign hne hdigits =>
      rcases List.mem_cons.mp hc with rfl | hc
      · rcases hletter with rfl | rfl <;> rfl
      · rcases List.mem_append.mp hc with hc | hc
        · exact isCharacter_of_mem_writeSign c hc
        · exact isCharacter_of_isDigit (hdigits c hc)

theorem Spelling.isCharacter {n : Numeral} {text : List Char} (h : n.Spelling text) :
    ∀ c ∈ text, isCharacter c = true := by
  obtain ⟨sign, hwhole, hfraction, hexponent⟩ := h
  intro c hc
  simp only [List.mem_append] at hc
  rcases hc with hc | hc | hc | hc
  · exact isCharacter_of_mem_writeSign c hc
  · exact isCharacter_of_isDigit (hwhole c hc)
  · exact isCharacter_of_mem_writeFraction hfraction c hc
  · exact hexponent.isCharacter c hc

end Numeral

end JsonRules
