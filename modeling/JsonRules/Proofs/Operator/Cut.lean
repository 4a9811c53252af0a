import JsonRules.Proofs.Number.Whole
import JsonRules.Builtin.Sequence

/-!
# Cuts of a text

`substr` computes where a cut begins and ends with binary64 numbers, of which it takes the integer parts
in the end.  The bounds are those of exact arithmetic and lie within the text, however large or small the
positions are.  So the two cuts of a text at one position make up the text, and each cut occurs in it.
-/

namespace JsonRules

/-- The length for which an operand asks; null asks for all the rest. -/
def Value.extent? : Value → Option (Option ExtendedInt)
  | .null => some none
  | v => v.toNumber.whole?.map some

theorem Value.extent?_of_ne_null {v : Value} (h : v ≠ .null) :
    v.extent? = v.toNumber.whole?.map some := by
  cases v with
  | null => exact absurd rfl h
  | _ => rfl

/-- Where a distance leads in a text of `size` characters: from `low` on, but not past the end, or, if it
is negative, back from the end, but not below `low`. -/
def Cut.advance (size low : Nat) : ExtendedInt → Int
  | .minusInfinity => low
  | .integer i => if i < 0 then max (size + i) low else min (low + i) size
  | .plusInfinity => size

/-- In exact arithmetic, a cut of a text of `size` characters takes those from `first` up to `last`, which
is not among them. -/
structure Cut (size : Nat) (start : ExtendedInt) (length : Option ExtendedInt) (first last : Nat) :
    Prop where
  first_eq : (first : Int) = Cut.advance size 0 start
  last_eq : (last : Int) = length.elim (size : Int) (Cut.advance size first)
  first_le : first ≤ last
  last_le : last ≤ size

/-- An infinite distance leads to the same place as one that is out of range. -/
theorem Cut.advance_of_isWhole {t : ExtendedInt} {i : Int} (h : Number.IsWhole t i) {size : Nat}
    (hsize : size ≤ wholeBound) (low : Nat) :
    Cut.advance size low t = if i < 0 then max (size + i) low else min (low + i) size := by
  cases h with
  | integer => rfl
  | minusInfinity hi =>
      rw [Cut.advance]
      omega
  | plusInfinity hi =>
      rw [Cut.advance]
      omega

theorem Cut.exists_advance (t : ExtendedInt) {size low : Nat} (hlow : low ≤ size) :
    ∃ k : Nat, low ≤ k ∧ k ≤ size ∧ (k : Int) = Cut.advance size low t := by
  cases t with
  | minusInfinity => exact ⟨low, Nat.le_refl low, hlow, rfl⟩
  | integer i =>
      rw [Cut.advance]
      by_cases hi : i < 0
      · rw [if_pos hi]
        exact ⟨(max (size + i) low).toNat, by omega, by omega, Int.toNat_of_nonneg (by omega)⟩
      · rw [if_neg hi]
        exact ⟨(min (low + i) size).toNat, by omega, by omega, Int.toNat_of_nonneg (by omega)⟩
  | plusInfinity => exact ⟨size, hlow, Nat.le_refl size, rfl⟩

theorem Cut.advance_zero (size : Nat) : Cut.advance size 0 (.integer 0) = (0 : Nat) := by
  rw [Cut.advance]
  omega

namespace Builtin

variable {size : Nat} {start length : Value}

theorem substr?_eq (args : List Value) :
    substr? args =
      (bounds (argument args 0).toText.length (argument args 1) (argument args 2)).map fun b =>
        (slice? (argument args 0).toText.toList b.1.toNat b.2.toNat).map String.ofList := by
  rw [substr?, String.length_toList]
  cases bounds (argument args 0).toText.length (argument args 1) (argument args 2) with
  | error e => rfl
  | ok b => rfl

theorem position_of_nan {what : String} {v : Value} (h : v.toNumber = .nan) :
    position what v = .error (notNumeric what v) := by
  rw [position, h]
  rfl

theorem position_of_ne_nan {what : String} {v : Value} (h : v.toNumber ≠ .nan) :
    position what v = .ok v.toNumber.trunc := by
  have hnan : v.toNumber.isNaN = false := by simpa [← Number.isNaN_iff] using h
  rw [position]
  simp only [hnan, Bool.false_eq_true, if_false]

theorem bounds_of_start {e : Error} (h : position "start" start = .error e) :
    bounds size start length = .error e := by
  rw [bounds, h]
  rfl

theorem bounds_null {s : Number} (h : position "start" start = .ok s) :
    bounds size start .null = .ok (cutBegin (.ofNat size) s, .ofNat size) := by
  rw [bounds, h]
  rfl

theorem bounds_of_ne_null {s : Number} (h : position "start" start = .ok s) (hlength : length ≠ .null) :
    bounds size start length = (position "length" length).map fun n =>
      (cutBegin (.ofNat size) s, cutEnd (.ofNat size) (cutBegin (.ofNat size) s) n) := by
  rw [bounds, h]
  cases length with
  | null => exact absurd rfl hlength
  | _ => rfl

theorem bounds_eq_error_iff {e : Error} :
    bounds size start length = .error e ↔
      start.toNumber = .nan ∧ e = notNumeric "start" start ∨
        start.toNumber ≠ .nan ∧ length ≠ .null ∧ length.toNumber = .nan ∧
          e = notNumeric "length" length := by
  by_cases hstart : start.toNumber = .nan
  · rw [bounds_of_start (position_of_nan hstart)]
    simp [hstart, eq_comm]
  · have hposition : position "start" start = .ok start.toNumber.trunc := position_of_ne_nan hstart
    by_cases hnull : length = .null
    · subst hnull
      rw [bounds_null hposition]
      simp [hstart]
    · rw [bounds_of_ne_null hposition hnull]
      by_cases hlength : length.toNumber = .nan
      · rw [position_of_nan hlength]
        simp [hstart, hnull, hlength, Except.map, eq_comm]
      · rw [position_of_ne_nan hlength]
        simp [hstart, hnull, hlength, Except.map]

theorem hasValue_cutBegin (hsize : size ≤ wholeBound) {x : Number} {t : ExtendedInt} {i : Int}
    (hx : x.HasValue i) (ht : Number.IsWhole t i) :
    (cutBegin (.ofNat size) x).HasValue (Cut.advance size 0 t) := by
  have hvalue : (Number.ofNat size).HasValue size := .ofNat hsize
  rw [Cut.advance_of_isWhole ht hsize]
  rw [cutBegin, hx.lt .zero]
  by_cases hneg : i < 0
  · simp only [hneg, decide_true, if_true]
    exact hvalue.max_add hx .zero (by omega) (by omega) (by omega) (by omega)
  · simp only [hneg, decide_false, Bool.false_eq_true, if_false, Int.natCast_zero, Int.zero_add]
    exact hx.min hvalue

theorem hasValue_cutEnd (hsize : size ≤ wholeBound) {x y : Number} {first : Nat} {t : ExtendedInt}
    {i : Int} (hx : x.HasValue first) (hfirst : first ≤ size) (hy : y.HasValue i)
    (ht : Number.IsWhole t i) :
    (cutEnd (.ofNat size) x y).HasValue (Cut.advance size first t) := by
  have hvalue : (Number.ofNat size).HasValue size := .ofNat hsize
  rw [Cut.advance_of_isWhole ht hsize]
  rw [cutEnd, hy.lt .zero]
  by_cases hneg : i < 0
  · simp only [hneg, decide_true, if_true]
    exact hvalue.max_add hy hx (by omega) (by omega) (by omega) (by omega)
  · simp only [hneg, decide_false, Bool.false_eq_true, if_false]
    exact hx.min_add hy hvalue (by omega) (by omega) (by omega) (by omega)

/-- The computed bounds are those of exact arithmetic. -/
theorem exists_cut (hsize : size ≤ wholeBound) {s : ExtendedInt} {n : Option ExtendedInt}
    (hs : start.toNumber.whole? = some s) (hn : length.extent? = some n) :
    ∃ (b e : Number) (first last : Nat), bounds size start length = .ok (b, e) ∧
      b.HasValue first ∧ e.HasValue last ∧ Cut size s n first last := by
  obtain ⟨i, hi, hwhole⟩ := Number.exists_trunc hs
  obtain ⟨first, _, hfirst, hadvance⟩ := Cut.exists_advance s (Nat.zero_le size)
  have hposition : position "start" start = .ok start.toNumber.trunc :=
    position_of_ne_nan fun h => nomatch (Number.whole?_eq_none_iff.mpr h).symm.trans hs
  have hbegin := hasValue_cutBegin hsize hi hwhole
  rw [← hadvance] at hbegin
  by_cases hnull : length = .null
  · subst hnull
    cases hn
    exact ⟨_, _, first, size, bounds_null hposition, hbegin, .ofNat hsize, hadvance, rfl, hfirst,
      Nat.le_refl size⟩
  · rw [Value.extent?_of_ne_null hnull] at hn
    obtain ⟨t, ht, rfl⟩ := Option.map_eq_some_iff.mp hn
    obtain ⟨j, hj, hwhole⟩ := Number.exists_trunc ht
    obtain ⟨last, hle, hlast, hadvance'⟩ := Cut.exists_advance t hfirst
    have hlength : position "length" length = .ok length.toNumber.trunc :=
      position_of_ne_nan fun h => nomatch (Number.whole?_eq_none_iff.mpr h).symm.trans ht
    have hend := hasValue_cutEnd hsize hbegin hfirst hj hwhole
    rw [← hadvance'] at hend
    refine ⟨_, _, first, last, ?_, hbegin, hend, hadvance, hadvance', hle, hlast⟩
    rw [bounds_of_ne_null hposition hnull, hlength]
    rfl

theorem slice?_of_le {cs : List Char} {first last : Nat} (hfirst : first ≤ last)
    (hlast : last ≤ cs.length) : slice? cs first last = some (cs.extract first last) :=
  if_pos ⟨hfirst, hlast⟩

/-- The cut is in range and takes what exact arithmetic says. -/
theorem exists_substr? (args : List Value) (hsize : (argument args 0).toText.length ≤ wholeBound)
    {s : ExtendedInt} {n : Option ExtendedInt} (hs : (argument args 1).toNumber.whole? = some s)
    (hn : (argument args 2).extent? = some n) :
    ∃ (b e : Number) (first last : Nat),
      bounds (argument args 0).toText.length (argument args 1) (argument args 2) = .ok (b, e) ∧
      b.HasValue first ∧ e.HasValue last ∧ Cut (argument args 0).toText.length s n first last ∧
      substr? args =
        .ok (some (String.ofList ((argument args 0).toText.toList.extract first last))) := by
  obtain ⟨b, e, first, last, hbounds, hb, he, hcut⟩ := exists_cut hsize hs hn
  have hlast : last ≤ wholeBound := Nat.le_trans hcut.last_le hsize
  have hslice := slice?_of_le hcut.first_le (String.length_toList ▸ hcut.last_le)
  refine ⟨b, e, first, last, hbounds, hb, he, hcut, ?_⟩
  rw [substr?_eq, hbounds]
  simp only [Except.map, hb.toNat (Nat.le_trans hcut.first_le hlast), he.toNat hlast, hslice,
    Option.map_some]

theorem exists_extract_of_substr? {args : List Value} {r : String} (h : substr? args = .ok (some r)) :
    ∃ first last, r = String.ofList ((argument args 0).toText.toList.extract first last) := by
  rw [substr?_eq] at h
  cases hbounds : bounds (argument args 0).toText.length (argument args 1) (argument args 2) with
  | error e =>
      rw [hbounds] at h
      cases h
  | ok b =>
      rw [hbounds, Except.map] at h
      obtain ⟨cs, hslice, rfl⟩ := Option.map_eq_some_iff.mp (Except.ok.inj h)
      rw [slice?] at hslice
      split at hslice
      · exact ⟨b.1.toNat, b.2.toNat, by rw [← Option.some.inj hslice]⟩
      · cases hslice

/-- Where a cut does not fail, both positions are numeric. -/
theorem exists_extents_of_substr? {args : List Value} {r : Option String}
    (h : substr? args = .ok r) :
    ∃ s n, (argument args 1).toNumber.whole? = some s ∧ (argument args 2).extent? = some n := by
  have hbounds : ∀ e, bounds (argument args 0).toText.length (argument args 1) (argument args 2) ≠
      .error e := by
    intro e he
    rw [substr?_eq, he] at h
    cases h
  have hstart : (argument args 1).toNumber ≠ .nan := fun hnan =>
    hbounds _ (bounds_eq_error_iff.mpr (.inl ⟨hnan, rfl⟩))
  obtain ⟨s, hs⟩ := Option.ne_none_iff_exists'.mp (Number.whole?_eq_none_iff.not.mpr hstart)
  by_cases hnull : argument args 2 = .null
  · exact ⟨s, none, hs, by rw [hnull]; rfl⟩
  · have hlength : (argument args 2).toNumber ≠ .nan := fun hnan =>
      hbounds _ (bounds_eq_error_iff.mpr (.inr ⟨hstart, hnull, hnan, rfl⟩))
    obtain ⟨n, hn⟩ := Option.ne_none_iff_exists'.mp (Number.whole?_eq_none_iff.not.mpr hlength)
    exact ⟨s, some n, hs, by rw [Value.extent?_of_ne_null hnull, hn]; rfl⟩

theorem extract_append_extract (cs : List Char) (first : Nat) :
    cs.extract 0 first ++ cs.extract first cs.length = cs := by
  rw [List.extract_eq_take_drop, List.extract_eq_take_drop, List.drop_zero, Nat.sub_zero,
    ← List.length_drop, List.take_length, List.take_append_drop]

theorem extract_infix (cs : List Char) (first last : Nat) : cs.extract first last <:+: cs := by
  rw [List.extract_eq_take_drop]
  exact (List.take_prefix _ _).isInfix.trans (List.drop_suffix _ _).isInfix

theorem occursIn_iff {needle cs : List Char} : occursIn needle cs = true ↔ needle <:+: cs := by
  induction cs with
  | nil => rw [occursIn, List.isEmpty_iff, List.infix_nil]
  | cons c rest ih => rw [occursIn, Bool.or_eq_true, List.isPrefixOf_iff_prefix, ih, List.infix_cons_iff]

/-- A cut fails only for a position that is not numeric, and it never leaves the text.  Its bounds are
those of exact arithmetic, they lie within the text, and the cut takes what is between them.  The cuts up
to a position and from it on make up the text, and a cut of a string occurs in it. -/
theorem substr_laws (args : List Value) (hsize : (argument args 0).toText.length ≤ wholeBound) :
    let text := (argument args 0).toText
    let start := argument args 1
    let length := argument args 2
    (∀ e, substr? args = .error e ↔
      start.toNumber = .nan ∧ e = notNumeric "start" start ∨
        start.toNumber ≠ .nan ∧ length ≠ .null ∧ length.toNumber = .nan ∧
          e = notNumeric "length" length) ∧
    substr? args ≠ .ok none ∧
    (∀ s n, start.toNumber.whole? = some s → length.extent? = some n →
      ∃ (b e : Number) (first last : Nat), bounds text.length start length = .ok (b, e) ∧
        b.HasValue first ∧ e.HasValue last ∧ Cut text.length s n first last ∧
        substr? args = .ok (some (String.ofList (text.toList.extract first last)))) ∧
    (∀ k, k ≠ .null → k.toNumber ≠ .nan → ∃ front back,
      substr? [argument args 0, .number .zero, k] = .ok (some front) ∧
      substr? [argument args 0, k] = .ok (some back) ∧ front ++ back = text) ∧
    ∀ s r, argument args 0 = .string s → substr? args = .ok (some r) →
      isIn [.string r, .string s] = true := by
  intro text start length
  refine ⟨fun e => ?_, fun hnone => ?_, fun s n hs hn => exists_substr? args hsize hs hn,
    fun k hnull hnan => ?_, fun s r hs hr => ?_⟩
  · rw [substr?_eq, ← bounds_eq_error_iff]
    cases bounds text.length start length with
    | error e' => simp [Except.map]
    | ok b => simp [Except.map]
  · obtain ⟨s, n, hs, hn⟩ := exists_extents_of_substr? hnone
    obtain ⟨_, _, _, _, _, _, _, _, hsubstr⟩ := exists_substr? args hsize hs hn
    cases hnone.symm.trans hsubstr
  · obtain ⟨t, ht⟩ := Option.ne_none_iff_exists'.mp (Number.whole?_eq_none_iff.not.mpr hnan)
    have hextent : k.extent? = some (some t) := by rw [Value.extent?_of_ne_null hnull, ht]; rfl
    obtain ⟨_, _, first, middle, _, _, _, hfront, hsubstr⟩ :=
      exists_substr? [argument args 0, .number .zero, k] hsize Number.whole?_zero hextent
    obtain ⟨_, _, middle', last, _, _, _, hback, hsubstr'⟩ :=
      exists_substr? [argument args 0, k] hsize ht rfl
    obtain rfl : first = 0 := Int.ofNat.inj (hfront.first_eq.trans (Cut.advance_zero _))
    obtain rfl : middle = middle' := Int.ofNat.inj (hfront.last_eq.trans hback.first_eq.symm)
    obtain rfl : last = text.length := Int.ofNat.inj hback.last_eq
    refine ⟨_, _, hsubstr, hsubstr', ?_⟩
    rw [← String.ofList_append, ← String.length_toList]
    exact (congrArg _ (extract_append_extract _ _)).trans String.ofList_toList
  · obtain ⟨first, last, rfl⟩ := exists_extract_of_substr? hr
    have htext : (argument args 0).toText.toList = s.toList := by rw [hs, Value.toText]
    have hneedle : (String.ofList (s.toList.extract first last)).toList =
        s.toList.extract first last := String.toList_ofList
    rw [htext]
    exact occursIn_iff.mpr (hneedle.symm ▸ extract_infix s.toList first last)

/-- From the first character to the last one, whatever the text. -/
theorem substr_laws_infinite : ∃ (args : List Value) (first last : Nat),
    (argument args 0).toText.length ≤ wholeBound ∧
      (argument args 1).toNumber.whole? = some .minusInfinity ∧
      (argument args 2).extent? = some (some .plusInfinity) ∧
      Cut (argument args 0).toText.length .minusInfinity (some .plusInfinity) first last ∧
      substr? args =
        .ok (some (String.ofList ((argument args 0).toText.toList.extract first last))) ∧
      ∃ front back, substr? [argument args 0, .number .zero, .number (.infinite true)] = .ok (some front) ∧
        substr? [argument args 0, .number (.infinite true)] = .ok (some back) ∧
          front ++ back = "héllo" := by
  let args : List Value := [.string "héllo", .number (.infinite true), .number (.infinite false)]
  have hsize : (argument args 0).toText.length ≤ wholeBound := by decide
  obtain ⟨_, _, hcut, hparts, _⟩ := substr_laws args hsize
  obtain ⟨_, _, first, last, _, _, _, hcut, hsubstr⟩ := hcut .minusInfinity (some .plusInfinity) rfl rfl
  obtain ⟨front, back, hfront, hback, htext⟩ :=
    hparts (.number (.infinite true)) (fun h => nomatch h) (fun h => nomatch h)
  exact ⟨args, first, last, hsize, rfl, rfl, hcut, hsubstr, front, back, hfront, hback, htext⟩

end Builtin

end JsonRules
