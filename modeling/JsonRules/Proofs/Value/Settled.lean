import JsonRules.Proofs.Value.Within

/-!
# Settled values

JSON has no spelling for not-a-number and the infinities, and its integers have no negative zero.  A
value is settled by putting null for the former and zero for the latter, wherever they stand inside;
the other numbers, texts, keys and their order are kept.
-/

namespace JsonRules

namespace Number

def negativeZero : Number := finite true .zero

/-- A finite number that is not the negative zero. -/
def Settled (x : Number) : Prop := x.isFinite = true ∧ x ≠ negativeZero

/-- The value that is left of a number. -/
def settled (x : Number) : Value :=
  if x.isFinite then .number (if x = negativeZero then zero else x) else .null

theorem settled_of_settled {x : Number} (h : x.Settled) : x.settled = .number x := by
  rw [settled, if_pos h.1, if_neg h.2]

theorem settled_zero : zero.Settled := ⟨rfl, fun h => by cases h⟩

/-- What is left of a number is no number or a settled one. -/
theorem settled_cases (x : Number) : x.settled = .null ∨ ∃ y, y.Settled ∧ x.settled = .number y := by
  by_cases hfinite : x.isFinite = true
  · by_cases hzero : x = negativeZero
    · exact .inr ⟨zero, settled_zero, by rw [settled, if_pos hfinite, if_pos hzero]⟩
    · exact .inr ⟨x, ⟨hfinite, hzero⟩, settled_of_settled ⟨hfinite, hzero⟩⟩
  · exact .inl (if_neg hfinite)

end Number

namespace Value

mutual

def settled : Value → Value
  | null => null
  | bool b => bool b
  | number x => x.settled
  | string s => string s
  | array items => array (settledItems items)
  | object members => object (settledMembers members)
termination_by structural v => v

def settledItems : List Value → List Value
  | [] => []
  | v :: rest => v.settled :: settledItems rest
termination_by structural items => items

def settledMembers : Entries Value → Entries Value
  | [] => []
  | (key, v) :: rest => (key, v.settled) :: settledMembers rest
termination_by structural members => members

end

@[simp]
theorem settledItems_eq_map (items : List Value) : settledItems items = items.map settled :=
  eq_map_of_cons rfl (fun _ _ => rfl) items

@[simp]
theorem settledMembers_eq_map (members : Entries Value) :
    settledMembers members = members.map fun entry => (entry.1, entry.2.settled) :=
  eq_map_of_cons rfl (fun _ _ => rfl) members

/-- Every number inside is finite and not the negative zero. -/
def Settled (v : Value) : Prop := v.AllNumbers Number.Settled

theorem settled_isSettled (v : Value) : v.settled.Settled := by
  induction v with
  | null => exact .null
  | bool b => exact .bool b
  | number x =>
      obtain hnull | ⟨y, hy, hsettled⟩ := x.settled_cases
      · rw [settled, hnull]
        exact .null
      · rw [settled, hsettled]
        exact allNumbers_number_iff.mpr hy
  | string s => exact .string s
  | array items ih =>
      rw [settled, settledItems_eq_map]
      refine allNumbers_array_iff.mpr fun w hw => ?_
      obtain ⟨v, hv, rfl⟩ := List.mem_map.mp hw
      exact ih v hv
  | object members ih =>
      rw [settled, settledMembers_eq_map]
      refine allNumbers_object_iff.mpr fun key w hw => ?_
      obtain ⟨⟨key', v⟩, hv, hentry⟩ := List.mem_map.mp hw
      cases hentry
      exact ih _ v hv

theorem Settled.settled_eq {v : Value} (h : v.Settled) : v.settled = v := by
  induction v with
  | null | bool | string => rfl
  | number x => exact Number.settled_of_settled (allNumbers_number_iff.mp h)
  | array items ih =>
      have hitems : items.map settled = items :=
        (List.map_congr_left fun v hv => ih v hv (allNumbers_array_iff.mp h v hv)).trans
          (List.map_id' items)
      rw [settled, settledItems_eq_map, hitems]
  | object members ih =>
      have hmembers : (members.map fun entry => (entry.1, entry.2.settled)) = members := by
        refine (List.map_congr_left fun entry hentry => ?_).trans (List.map_id' members)
        rw [ih entry.1 entry.2 hentry (allNumbers_object_iff.mp h entry.1 entry.2 hentry)]
      rw [settled, settledMembers_eq_map, hmembers]

theorem settled_eq_iff {v : Value} : v.settled = v ↔ v.Settled :=
  ⟨fun h => h ▸ v.settled_isSettled, Settled.settled_eq⟩

theorem settled_settled (v : Value) : v.settled.settled = v.settled :=
  v.settled_isSettled.settled_eq

end Value

end JsonRules
