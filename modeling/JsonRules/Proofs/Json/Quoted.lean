import JsonRules.Proofs.Json.Grammar

/-!
# Quoted strings read back

However the characters of a string are written between its quotes, they are read back.  What is written
for a string is one of these ways.
-/

namespace JsonRules.Json.Quoted

/-! ### Reading -/

theorem readBody?_plain {c : Char} (hcontrol : 0x20 ≤ c.toNat) (hquote : c ≠ '"')
    (hbackslash : c ≠ '\\') (rest : List Char) :
    readBody? none (c :: rest) = prepend (some c) (readBody? none rest) := by
  simp [readBody?, hbackslash, Nat.not_lt.mpr hcontrol]

theorem readBody?_short {c letter : Char} (h : ofShortEscape? letter = some c) (rest : List Char) :
    readBody? none ('\\' :: letter :: rest) = prepend (some c) (readBody? none rest) := by
  rw [ofShortEscape?.eq_def] at h
  split at h <;> first
    | cases h
      rfl
    | cases h

theorem not_surrogate_of_charOfUnit? {n : Nat} {c : Char} (h : charOfUnit? n = some c) :
    isHighSurrogate n = false := by
  cases hhigh : isHighSurrogate n with
  | false => rfl
  | true =>
      rw [charOfUnit?, hhigh, Bool.true_or, if_pos rfl] at h
      cases h

theorem high_of_charOfPair? {high low : Nat} {c : Char} (h : charOfPair? high low = some c) :
    isHighSurrogate high = true := by
  rw [charOfPair?] at h
  split at h
  · rename_i hpair
    exact (Bool.and_eq_true_iff.mp hpair).1
  · cases h

theorem readBody?_spellsChar {c : Char} {text : List Char} (h : SpellsChar c text)
    (rest : List Char) : readBody? none (text ++ rest) = prepend (some c) (readBody? none rest) := by
  cases h with
  | plain hcontrol hquote hbackslash => exact readBody?_plain hcontrol hquote hbackslash rest
  | short h => exact readBody?_short h rest
  | unit hunit hchar =>
      simp [readBody?, hunit, not_surrogate_of_charOfUnit? hchar, hchar]
  | pair hhigh hlow hchar =>
      simp [readBody?, hhigh, hlow, high_of_charOfPair? hchar, hchar]

theorem read?_spells {cs body : List Char} (h : Spells cs body) (rest : List Char) :
    read? (body ++ '"' :: rest) = some (cs, rest) := by
  induction h with
  | nil => rfl
  | cons hchar _ ih =>
      rw [read?, List.append_assoc, readBody?_spellsChar hchar]
      rw [read?] at ih
      rw [ih]
      rfl

/-! ### Writing -/

theorem ofShortEscape?_of_shortEscape? {c letter : Char} (h : shortEscape? c = some letter) :
    ofShortEscape? letter = some c := by
  rw [shortEscape?.eq_def] at h
  split at h <;> first
    | cases h
      rfl
    | cases h

theorem hexValue?_digitChar : ∀ n < 16, hexValue? (Nat.digitChar n) = some n := by decide

/-- The four digits of an escaped control character. -/
theorem unit?_hexPair {n : Nat} (h : n < 0x20) :
    unit? '0' '0' (Nat.digitChar (n / 16)) (Nat.digitChar (n % 16)) = some n := by
  have hzero : hexValue? '0' = some 0 := rfl
  have hhigh := hexValue?_digitChar (n / 16) (by omega)
  have hlow := hexValue?_digitChar (n % 16) (by omega)
  simp only [unit?, hzero, hhigh, hlow, Option.bind_eq_bind, Option.bind_some, Option.some.injEq]
  omega

theorem charOfUnit?_toNat {c : Char} (h : c.toNat < 0x20) : charOfUnit? c.toNat = some c := by
  have hsurrogate : (isHighSurrogate c.toNat || isLowSurrogate c.toNat) = false := by
    simp [isHighSurrogate, isLowSurrogate]
    omega
  rw [charOfUnit?, hsurrogate, Char.ofNat_toNat]
  rfl

theorem spellsChar_escape (c : Char) : SpellsChar c (escape c) := by
  rw [escape]
  cases hescape : shortEscape? c with
  | some letter => exact .short (ofShortEscape?_of_shortEscape? hescape)
  | none =>
      dsimp only
      split
      · rename_i hcontrol
        exact .unit (unit?_hexPair hcontrol) (charOfUnit?_toNat hcontrol)
      · rename_i hplain
        refine .plain (Nat.le_of_not_lt hplain) ?_ ?_
        all_goals
          rintro rfl
          cases hescape

theorem spells_flatMap (cs : List Char) : Spells cs (cs.flatMap escape) := by
  induction cs with
  | nil => exact .nil
  | cons c cs ih => exact .cons (spellsChar_escape c) ih

theorem literal_write (s : String) : Literal s (write s.toList) :=
  ⟨s.toList.flatMap escape, spells_flatMap s.toList, rfl⟩

end JsonRules.Json.Quoted
