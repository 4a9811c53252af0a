import JsonRules.Proofs.Value.Settled
import JsonRules.Proofs.Number.Exact
import JsonRules.Proofs.Json.Lawful
import JsonRules.Engine

/-!
# Values as documents and back

Through every library that keeps numbers, what the way there and back leaves of a value is the settled
value.  If the library writes documents as it writes other data, a value and its document have one text.
-/

namespace JsonRules

variable {ν α : Type}

namespace Number

variable {x : Number}

/-- Both zeros are written as the integer. -/
theorem asInteger?_zero (negative : Bool) : (finite negative .zero).asInteger? = some 0 := by
  have hintegral : (finite negative .zero).isIntegral = true := by
    rw [isIntegral, Magnitude.zero, Nat.zero_mod]
    rfl
  have hlimit : Magnitude.zero.units < integerLimit :=
    Nat.mul_pos (Nat.two_pow_pos 63) unitsPerOne_pos
  rw [asInteger?, if_pos ⟨hintegral, hlimit⟩, toInt64, signedWhole_of_units_eq_zero rfl]
  rfl

theorem isFinite_of_asInteger? {i : Int64} (h : x.asInteger? = some i) : x.isFinite = true := by
  cases x with
  | nan | infinite => cases h
  | finite negative m => rfl

theorem ne_negativeZero_of_units {negative : Bool} {m : Magnitude} (h : m.units ≠ 0) :
    finite negative m ≠ negativeZero := by
  intro hzero
  cases hzero
  exact h rfl

/-- The cast is exact for magnitudes below the limit. -/
theorem toInt_of_lt {negative : Bool} {m : Magnitude} (h : m.units < integerLimit) :
    (finite negative m).toInt = signedWhole negative m := by
  have hrange : (signedWhole negative m).natAbs < 2 ^ 63 := by
    rw [natAbs_signedWhole, wholePart]
    exact Nat.div_lt_of_lt_mul (Nat.mul_comm .. ▸ h)
  refine Int64.toInt_ofIntClamp ?_ ?_
  · rw [Int64.toInt_minValue]
    omega
  · rw [Int64.toInt_maxValue]
    omega

/-- A number written as an integer comes back but for the sign of zero. -/
theorem ofInt_of_asInteger? {i : Int64} (h : x.asInteger? = some i) :
    Value.number (ofInt i.toInt) = x.settled := by
  cases x with
  | nan | infinite => cases h
  | finite negative m =>
      rw [asInteger?] at h
      split at h
      · rename_i hint
        have hfinite : (finite negative m).isFinite = true := rfl
        have hcast : i.toInt = signedWhole negative m := by
          rw [← Option.some.inj h]
          exact toInt_of_lt hint.2
        rw [hcast, ofInt_signedWhole hint.1, settled, if_pos hfinite]
        by_cases hunits : m.units = 0
        · obtain rfl := Magnitude.eq_zero_of_units hunits
          cases negative <;> rfl
        · rw [if_neg hunits, if_neg (ne_negativeZero_of_units hunits)]
      · cases h

/-- No integer is written for other numbers, so zero is not among them. -/
theorem settled_of_asInteger?_eq_none (h : x.asInteger? = none) (hfinite : x.isFinite = true) :
    x.Settled := by
  refine ⟨hfinite, fun hzero => ?_⟩
  rw [hzero, negativeZero, asInteger?_zero] at h
  cases h

/-! ### Serialized numbers -/

section Serialize

variable {s : Serializer α}

theorem serialize_of_not_finite (h : x.isFinite = false) : x.serialize s = s.unit := by
  rw [serialize, h]
  rfl

theorem serialize_of_some {i : Int64} (h : x.asInteger? = some i) : x.serialize s = s.int i := by
  rw [serialize, isFinite_of_asInteger? h, h]
  rfl

theorem serialize_of_none (h : x.asInteger? = none) (hfinite : x.isFinite = true) :
    x.serialize s = s.real x := by
  rw [serialize, hfinite, h]
  rfl

end Serialize

/-! ### Numbers as documents -/

section Document

variable {lib : Library ν}

theorem toDocument_of_some {i : Int64} (h : x.asInteger? = some i) :
    x.toDocument lib = .number (lib.ofInt i) := by
  rw [toDocument, h]

theorem toDocument_of_not_finite (hkeeps : lib.KeepsNumbers) (h : x.isFinite = false) :
    x.toDocument lib = .null := by
  have hint : x.asInteger? = none := by
    cases hint : x.asInteger? with
    | none => rfl
    | some i => cases h.symm.trans (isFinite_of_asInteger? hint)
  rw [toDocument, hint, hkeeps.ofReal?_eq_none x h]

theorem exists_toDocument_of_none (hkeeps : lib.KeepsNumbers) (h : x.asInteger? = none)
    (hfinite : x.isFinite = true) : ∃ n, lib.ofReal? x = some n ∧ lib.toReal? n = some x ∧
      x.toDocument lib = .number n := by
  obtain ⟨n, hn, hread⟩ := hkeeps.exists_ofReal? x hfinite
  exact ⟨n, hn, hread, by rw [toDocument, h, hn]⟩

theorem text_toDocument (hkeeps : lib.KeepsNumbers) (halike : lib.WritesAlike) (x : Number) :
    lib.text (x.toDocument lib) = x.serialize lib.writer := by
  cases hfinite : x.isFinite with
  | false =>
      rw [toDocument_of_not_finite hkeeps hfinite, serialize_of_not_finite hfinite, halike.null]
  | true =>
      cases hint : x.asInteger? with
      | some i => rw [toDocument_of_some hint, serialize_of_some hint, halike.int]
      | none =>
          obtain ⟨n, hn, -, hdocument⟩ := exists_toDocument_of_none hkeeps hint hfinite
          rw [hdocument, serialize_of_none hint hfinite, halike.real x n hn]

theorem toValue_toDocument (hkeeps : lib.KeepsNumbers) (x : Number) :
    (x.toDocument lib).toValue lib.number = x.settled := by
  cases hfinite : x.isFinite with
  | false =>
      rw [toDocument_of_not_finite hkeeps hfinite, settled, hfinite]
      rfl
  | true =>
      cases hint : x.asInteger? with
      | some i =>
          rw [toDocument_of_some hint, Document.toValue, Library.number, hkeeps.toReal?_ofInt,
            Option.getD_some]
          exact ofInt_of_asInteger? hint
      | none =>
          obtain ⟨n, -, hread, hdocument⟩ := exists_toDocument_of_none hkeeps hint hfinite
          rw [hdocument, Document.toValue, Library.number, hread, Option.getD_some]
          exact (settled_of_settled (settled_of_asInteger?_eq_none hint hfinite)).symm

end Document

/-- What is left of a number goes to JSON as the number does. -/
theorem settled_eq_or (x : Number) : x.isFinite = false ∧ x.settled = .null ∨
    x = negativeZero ∧ x.settled = .number zero ∨ x.settled = .number x := by
  by_cases hfinite : x.isFinite = true
  · by_cases hzero : x = negativeZero
    · exact .inr (.inl ⟨hzero, by rw [settled, if_pos hfinite, if_pos hzero]⟩)
    · exact .inr (.inr (settled_of_settled ⟨hfinite, hzero⟩))
  · exact .inl ⟨Bool.eq_false_iff.mpr hfinite, if_neg hfinite⟩

theorem toDocument_settled {lib : Library ν} (hkeeps : lib.KeepsNumbers) (x : Number) :
    x.settled.toDocument lib = x.toDocument lib := by
  rcases x.settled_eq_or with ⟨hfinite, hsettled⟩ | ⟨hzero, hsettled⟩ | hsettled
  · rw [hsettled, toDocument_of_not_finite hkeeps hfinite, Value.toDocument]
  · rw [hsettled, hzero, Value.toDocument, zero, negativeZero, toDocument_of_some (asInteger?_zero false),
      toDocument_of_some (asInteger?_zero true)]
  · rw [hsettled, Value.toDocument]

theorem serialize_settled (s : Serializer α) (x : Number) : x.settled.serialize s = x.serialize s := by
  rcases x.settled_eq_or with ⟨hfinite, hsettled⟩ | ⟨hzero, hsettled⟩ | hsettled
  · rw [hsettled, serialize_of_not_finite hfinite, Value.serialize]
  · rw [hsettled, hzero, Value.serialize, zero, negativeZero, serialize_of_some (asInteger?_zero false),
      serialize_of_some (asInteger?_zero true)]
  · rw [hsettled, Value.serialize]

end Number

namespace Value

variable {lib : Library ν}

theorem text_toDocument (hkeeps : lib.KeepsNumbers) (halike : lib.WritesAlike) (v : Value) :
    lib.text (v.toDocument lib) = v.display lib := by
  rw [display]
  induction v with
  | null => exact halike.null
  | bool b => exact halike.bool b
  | number x => exact x.text_toDocument hkeeps halike
  | string s => exact halike.string s
  | array items ih =>
      rw [toDocument, itemsToDocument_eq_map, halike.array, List.map_map, serialize,
        serializeItems_eq_map]
      exact congrArg lib.writer.sequence (List.map_congr_left ih)
  | object members ih =>
      rw [toDocument, membersToDocument_eq_map, halike.object, List.map_map, serialize,
        serializeMembers_eq_map]
      refine congrArg lib.writer.map (List.map_congr_left fun member hmember => ?_)
      exact congrArg (Prod.mk member.1) (ih member.1 member.2 hmember)

theorem toValue_toDocument (hkeeps : lib.KeepsNumbers) (v : Value) :
    (v.toDocument lib).toValue lib.number = v.settled := by
  induction v with
  | null | bool | string => rfl
  | number x => exact x.toValue_toDocument hkeeps
  | array items ih =>
      simp only [toDocument, itemsToDocument_eq_map, Document.toValue, Document.itemsToValue_eq_map,
        settled, settledItems_eq_map, List.map_map]
      exact congrArg array (List.map_congr_left ih)
  | object members ih =>
      simp only [toDocument, membersToDocument_eq_map, Document.toValue,
        Document.membersToValue_eq_map, settled, settledMembers_eq_map, List.map_map]
      refine congrArg object (List.map_congr_left fun member hmember => ?_)
      exact congrArg (Prod.mk member.1) (ih member.1 member.2 hmember)

/-- The document of a value is that of what is left of it. -/
theorem toDocument_settled (hkeeps : lib.KeepsNumbers) (v : Value) :
    v.settled.toDocument lib = v.toDocument lib := by
  induction v with
  | null | bool | string => rfl
  | number x => exact x.toDocument_settled hkeeps
  | array items ih =>
      simp only [settled, settledItems_eq_map, toDocument, itemsToDocument_eq_map, List.map_map]
      exact congrArg Document.array (List.map_congr_left ih)
  | object members ih =>
      simp only [settled, settledMembers_eq_map, toDocument, membersToDocument_eq_map, List.map_map]
      refine congrArg Document.object (List.map_congr_left fun member hmember => ?_)
      exact congrArg (Prod.mk member.1) (ih member.1 member.2 hmember)

theorem serialize_settled (s : Serializer α) (v : Value) : v.settled.serialize s = v.serialize s := by
  induction v with
  | null | bool | string => rfl
  | number x => exact x.serialize_settled s
  | array items ih =>
      simp only [settled, settledItems_eq_map, serialize, serializeItems_eq_map, List.map_map]
      exact congrArg s.sequence (List.map_congr_left ih)
  | object members ih =>
      simp only [settled, settledMembers_eq_map, serialize, serializeMembers_eq_map, List.map_map]
      refine congrArg s.map (List.map_congr_left fun member hmember => ?_)
      exact congrArg (Prod.mk member.1) (ih member.1 member.2 hmember)

end Value

namespace Engine

variable {σ : Type}

theorem result_applyDocument (lib : Library ν) (engine : Engine σ) (rule data : Document ν)
    (host : σ) :
    (engine.applyDocument lib rule data host).result =
      (engine.apply (rule.toValue lib.number) (data.toValue lib.number) host).result.map
        (Value.toDocument lib) := by
  rw [applyDocument, Run.bind_apply, Run.pure_apply]

/-- A value and its document have the same text, so the texts of results are the same whichever form an
engine is asked for.  There and back every value is settled, which changes just the values with an
infinity, not-a-number or the negative zero in them, and none of them twice. -/
theorem interchange_laws {lib : Library ν} (hkeeps : lib.KeepsNumbers) (halike : lib.WritesAlike)
    (engine : Engine σ) (rule data : Document ν) (host : σ) (v : Value) :
    (lib.text (v.toDocument lib) = v.display lib ∧
      (engine.applyDocument lib rule data host).result.map lib.text =
        (engine.apply (rule.toValue lib.number) (data.toValue lib.number) host).result.map
          (Value.display lib)) ∧
    (v.toDocument lib).toValue lib.number = v.settled ∧
    ((v.toDocument lib).toValue lib.number = v ↔
      ∀ x, (Value.number x).Within v → x.isFinite = true ∧ x ≠ .negativeZero) ∧
    ((v.toDocument lib).toValue lib.number).toDocument lib = v.toDocument lib ∧
    (((v.toDocument lib).toValue lib.number).toDocument lib).toValue lib.number =
      (v.toDocument lib).toValue lib.number := by
  have hvalue := Value.toValue_toDocument hkeeps
  refine ⟨⟨v.text_toDocument hkeeps halike, ?_⟩, hvalue v, ?_, ?_, ?_⟩
  · rw [result_applyDocument]
    cases (engine.apply (rule.toValue lib.number) (data.toValue lib.number) host).result with
    | ok w => exact congrArg Except.ok (w.text_toDocument hkeeps halike)
    | error e => rfl
  · rw [hvalue v]
    exact Value.settled_eq_iff
  · rw [hvalue v, v.toDocument_settled hkeeps]
  · rw [hvalue v, hvalue v.settled, v.settled_settled]

/-- Numbers that JSON does not have, in the library in use and for a rule that divides by zero. -/
theorem interchange_laws_not_finite :
    let v : Value := .array [.number .nan, .number .negativeZero, .object [("", .number (.infinite true))]]
    let rule : Json := .object [("/", .array [Json.int 1, Json.int 0])]
    v.toJson.text = v.jsonText ∧
      (standard.applyJson rule .null ()).result.map Json.text =
        (standard.apply rule.toValue .null ()).result.map Value.jsonText ∧
      v.toJson.toValue = .array [.null, .number .zero, .object [("", .null)]] := by
  intro v rule
  obtain ⟨⟨htext, hresult⟩, hvalue, -⟩ := interchange_laws Json.library_keepsNumbers
    Json.library_writesAlike (standard : Engine Unit) rule .null () v
  exact ⟨htext, hresult, hvalue⟩

end Engine

end JsonRules
