import JsonRules.Proofs.Value.Reordered
import JsonRules.Proofs.Json.Conversion

/-!
# Reading what was written

The text of a value spells a document that stands for the settled value.  So through every library that
writes JSON and reads it with the nearest numbers, a value is read as the settled value.
-/

namespace JsonRules

open Json (enclose)
open Json.Quoted (Literal)

variable {ν : Type} {s : Serializer String}

namespace Value

mutual

/-- How many containers are nested in a value, itself included. -/
def nesting : Value → Nat
  | array items => itemNesting items + 1
  | object members => memberNesting members + 1
  | _ => 0
termination_by structural v => v

def itemNesting : List Value → Nat
  | [] => 0
  | v :: rest => max v.nesting (itemNesting rest)
termination_by structural items => items

def memberNesting : Entries Value → Nat
  | [] => 0
  | (_, v) :: rest => max v.nesting (memberNesting rest)
termination_by structural members => members

end

theorem nesting_le_itemNesting {items : List Value} {v : Value} (h : v ∈ items) :
    v.nesting ≤ itemNesting items := by
  induction items with
  | nil => cases h
  | cons w rest ih =>
      rcases List.mem_cons.mp h with rfl | h
      · exact Nat.le_max_left ..
      · exact Nat.le_trans (ih h) (Nat.le_max_right ..)

theorem nesting_le_memberNesting {members : Entries Value} {member : String × Value}
    (h : member ∈ members) : member.2.nesting ≤ memberNesting members := by
  induction members with
  | nil => cases h
  | cons other rest ih =>
      rcases List.mem_cons.mp h with rfl | h
      · exact Nat.le_max_left ..
      · exact Nat.le_trans (ih h) (Nat.le_max_right ..)

end Value

/-- The text of a number spells the number that is left of it, or null. -/
theorem Number.exists_spelled (h : s.WritesNumbers) (x : Number) (nesting : Nat) :
    ∃ d : Document Numeral, d.Spelled nesting (x.serialize s).toList ∧
      d.toValue Numeral.toNumber = x.settled := by
  cases hfinite : x.isFinite with
  | false =>
      refine ⟨.null, ?_, (if_neg (Bool.eq_false_iff.mp hfinite)).symm⟩
      rw [serialize_of_not_finite hfinite, h.unit]
      exact .null
  | true =>
      cases hint : x.asInteger? with
      | some i =>
          obtain ⟨n, hstrict, hnumber, hwrite⟩ := exists_numeral_toString i.toInt
          have hsettled := ofInt_of_asInteger? hint
          have hkept : (Value.number (ofInt i.toInt)).Settled :=
            hsettled ▸ (Value.number x).settled_isSettled
          have hn : n.toNumber.isFinite = true := hnumber ▸ (Value.allNumbers_number_iff.mp hkept).1
          refine ⟨.number n, ?_, (congrArg Value.number hnumber).trans hsettled⟩
          rw [serialize_of_some hint, h.int, hwrite]
          exact .number hstrict hn
      | none =>
          obtain ⟨n, hstrict, -, hnumber, hwrite⟩ := h.real x hfinite
          have hsettled := settled_of_settled (settled_of_asInteger?_eq_none hint hfinite)
          refine ⟨.number n, ?_, (congrArg Value.number hnumber).trans hsettled.symm⟩
          rw [serialize_of_none hint hfinite, hwrite]
          exact .number hstrict (hnumber ▸ hfinite)

namespace Document.Spelled

variable {α : Type} {nesting : Nat}

theorem items {xs : List α} {document : α → Document Numeral} {text : α → List Char}
    (h : ∀ x ∈ xs, Spelled nesting (document x) (text x)) :
    Spelled (nesting + 1) (.array (xs.map document)) (enclose '[' ']' (xs.map text)) := by
  have hparts := @Spelled.array nesting (xs.map fun x => (document x, text x))
    (List.forall_mem_map.mpr h)
  simpa only [List.map_map, Function.comp_def] using hparts

theorem members {entries : Entries α} (hdistinct : entries.Distinct) {key : String → List Char}
    (hkey : ∀ s, Literal s (key s)) (text : α → List Char)
    {document : String × α → Document Numeral}
    (h : ∀ entry ∈ entries, Spelled nesting (document entry) (text entry.2)) :
    Spelled (nesting + 1) (.object (entries.map fun entry => (entry.1, document entry)))
      (enclose '\x7b' '\x7d' (entries.map fun entry => key entry.1 ++ ':' :: text entry.2)) := by
  have hparts := @Spelled.object nesting
    (entries.map fun entry => ⟨entry.1, key entry.1, document entry, text entry.2⟩)
    (by simpa [Function.comp_def, Entries.Distinct, Entries.keys] using hdistinct)
    (List.forall_mem_map.mpr fun entry _ => hkey entry.1) (List.forall_mem_map.mpr h)
  simpa only [List.map_map, Function.comp_def, Part.member, Part.write] using hparts

end Document.Spelled

namespace Value

/-- The text of a value spells a document that stands for what is left of the value. -/
theorem exists_spelled (h : s.WritesJson) {v : Value} (hkeyed : v.Keyed) {nesting : Nat}
    (hnesting : v.nesting ≤ nesting) :
    ∃ d : Document Numeral, d.Spelled nesting (v.serialize s).toList ∧
      d.toValue Numeral.toNumber = v.settled := by
  induction v generalizing nesting with
  | null => exact ⟨.null, by rw [serialize, h.unit]; exact .null, rfl⟩
  | bool b =>
      refine ⟨.bool b, ?_, rfl⟩
      rw [serialize, h.bool]
      cases b <;> exact .bool _
  | number x => exact x.exists_spelled h.toWritesNumbers nesting
  | string t => exact ⟨.string t, .string (h.text t), rfl⟩
  | array items ih =>
      cases nesting with
      | zero => exact absurd hnesting (Nat.not_succ_le_zero _)
      | succ room =>
          have hitem (v : Value) (hv : v ∈ items) := ih v hv (keyed_array_iff.mp hkeyed v hv)
            (Nat.le_trans (nesting_le_itemNesting hv) (Nat.le_of_succ_le_succ hnesting))
          -- One document is chosen for each element, so that they can be put together.
          choose! document hspelled hvalue using hitem
          refine ⟨.array (items.map document), ?_, ?_⟩
          · rw [serialize, serializeItems_eq_map, h.sequence, List.map_map]
            exact .items hspelled
          · rw [Document.toValue, Document.itemsToValue_eq_map, List.map_map, settled,
              settledItems_eq_map]
            exact congrArg array (List.map_congr_left hvalue)
  | object members ih =>
      cases nesting with
      | zero => exact absurd hnesting (Nat.not_succ_le_zero _)
      | succ room =>
          obtain ⟨hdistinct, hkeyedMembers⟩ := keyed_object_iff.mp hkeyed
          have hmember (member : String × Value) (hmember : member ∈ members) :=
            ih member.1 member.2 hmember (hkeyedMembers member.1 member.2 hmember)
              (Nat.le_trans (nesting_le_memberNesting hmember) (Nat.le_of_succ_le_succ hnesting))
          choose! document hspelled hvalue using hmember
          refine ⟨.object (members.map fun member => (member.1, document member)), ?_, ?_⟩
          · rw [serialize, serializeMembers_eq_map, h.map, List.map_map]
            exact .members hdistinct h.text (fun v => (v.serialize s).toList) hspelled
          · rw [Document.toValue, Document.membersToValue_eq_map, List.map_map, settled,
              settledMembers_eq_map]
            refine congrArg object (List.map_congr_left fun member hmember => ?_)
            exact congrArg (Prod.mk member.1) (hvalue member hmember)

variable {lib : Library ν}

/-- The numbers that are read are those of the numerals, and so is the value. -/
theorem read?_eq_settled (hwrites : lib.writer.WritesJson) (hreads : lib.ReadsJson) {v : Value}
    (hkeyed : v.Keyed) (hnesting : v.nesting ≤ Library.nestingLimit) :
    read? lib (v.display lib) = some v.settled := by
  obtain ⟨d, hspelled, hvalue⟩ := exists_spelled hwrites hkeyed hnesting
  have hread := hreads d (v.display lib) hspelled
  obtain ⟨e, he, hnumbers⟩ := Option.map_eq_some_iff.mp hread
  have hnumber : lib.number = fun n => (lib.toReal? n).getD .nan := rfl
  rw [read?, he, Option.map_some, hnumber,
    ← Document.toValue_map lib.toReal? (fun x => x.getD .nan), hnumbers, Document.toValue_map,
    ← hvalue]
  rfl

/-- A value that is not nested too deep can be read back from its text, and what is read is the settled
value.  So a value whose numbers are all finite and not the negative zero is read as it was written, and
whatever was read is written as it was before. -/
theorem read?_display (hwrites : lib.writer.WritesJson) (hreads : lib.ReadsJson) {v : Value}
    (hkeyed : v.Keyed) (hnesting : v.nesting ≤ Library.nestingLimit) :
    read? lib (v.display lib) = some v.settled ∧
    ((∀ x, (number x).Within v → x.isFinite = true ∧ x ≠ .negativeZero) →
      read? lib (v.display lib) = some v) ∧
    ∀ w, read? lib (v.display lib) = some w → w.display lib = v.display lib := by
  have hread := read?_eq_settled hwrites hreads hkeyed hnesting
  refine ⟨hread, fun hsettled => ?_, fun w hw => ?_⟩
  · rw [hread, Settled.settled_eq hsettled]
  · rw [← Option.some.inj (hread.symm.trans hw)]
    exact serialize_settled lib.writer v

/-- Quotes, control characters, an empty container and numbers that JSON does not have. -/
theorem read?_display_escapes :
    let v := object [("\"\\\n", array [number .nan, number .negativeZero, string "\x01é"]),
      ("", object [])]
    let w := object [("\"\\\n", array [null, number .zero, string "\x01é"]), ("", object [])]
    v.Keyed ∧ v.nesting ≤ Library.nestingLimit ∧ parseJson? v.jsonText = some w ∧
      w.jsonText = v.jsonText := by
  intro v w
  have hkeyed : v.Keyed := by
    simp [v, keyed_array_iff, keyed_object_iff, Entries.Distinct, Entries.keys, or_imp, forall_and,
      Keyed.number, Keyed.string]
  have hnesting : v.nesting ≤ Library.nestingLimit := by decide
  obtain ⟨hread, -, hwritten⟩ := read?_display Json.writer_writesJson Json.library_readsJson hkeyed
    hnesting
  exact ⟨hkeyed, hnesting, hread, hwritten w hread⟩

end Value

end JsonRules
