import JsonRules.Proofs.Lifting
import JsonRules.Json.Basic

/-!
# Documents

Documents are gone through as values are, and their numbers may be replaced one by one.
-/

namespace JsonRules

variable {ν μ α : Type}

namespace Document

/-- Induction over a document with the statement for each element or member inside. -/
@[elab_as_elim, induction_eliminator]
theorem inductionOn {motive : Document ν → Prop} (null : motive null)
    (bool : ∀ b, motive (bool b)) (number : ∀ n, motive (number n))
    (string : ∀ s, motive (string s))
    (array : ∀ items, (∀ d ∈ items, motive d) → motive (array items))
    (object : ∀ members, (∀ key d, (key, d) ∈ members → motive d) → motive (object members))
    (d : Document ν) : motive d := by
  refine @Document.rec ν motive (fun items => ∀ d ∈ items, motive d)
    (fun members => ∀ key d, (key, d) ∈ members → motive d) (fun entry => motive entry.2)
    null bool number string array object ?_ ?_ ?_ ?_ (fun _ _ h => h) d
  · intro d hd
    cases hd
  · intro d items ihd ihitems e he
    rcases List.mem_cons.mp he with rfl | he
    · exact ihd
    · exact ihitems e he
  · intro key d hd
    cases hd
  · intro entry members ihentry ihmembers key d hd
    rcases List.mem_cons.mp hd with rfl | hd
    · exact ihentry
    · exact ihmembers key d hd

@[simp]
theorem itemsToValue_eq_map (f : ν → Number) (items : List (Document ν)) :
    itemsToValue f items = items.map (toValue f) :=
  eq_map_of_cons rfl (fun _ _ => rfl) items

@[simp]
theorem membersToValue_eq_map (f : ν → Number) (members : Entries (Document ν)) :
    membersToValue f members = members.map fun member => (member.1, member.2.toValue f) :=
  eq_map_of_cons rfl (fun _ _ => rfl) members

mutual

/-- The document with other numbers. -/
def map (f : ν → μ) : Document ν → Document μ
  | null => null
  | bool b => bool b
  | number n => number (f n)
  | string s => string s
  | array items => array (mapItems f items)
  | object members => object (mapMembers f members)
termination_by structural d => d

def mapItems (f : ν → μ) : List (Document ν) → List (Document μ)
  | [] => []
  | d :: rest => d.map f :: mapItems f rest
termination_by structural items => items

def mapMembers (f : ν → μ) : Entries (Document ν) → Entries (Document μ)
  | [] => []
  | (key, d) :: rest => (key, d.map f) :: mapMembers f rest
termination_by structural members => members

end

@[simp]
theorem mapItems_eq_map (f : ν → μ) (items : List (Document ν)) :
    mapItems f items = items.map (map f) :=
  eq_map_of_cons rfl (fun _ _ => rfl) items

@[simp]
theorem mapMembers_eq_map (f : ν → μ) (members : Entries (Document ν)) :
    mapMembers f members = members.map fun member => (member.1, member.2.map f) :=
  eq_map_of_cons rfl (fun _ _ => rfl) members

theorem map_map {κ : Type} (f : ν → μ) (g : μ → κ) (d : Document ν) :
    (d.map f).map g = d.map fun n => g (f n) := by
  induction d with
  | null | bool | number | string => rfl
  | array items ih =>
      simp only [map, mapItems_eq_map, List.map_map]
      exact congrArg array (List.map_congr_left ih)
  | object members ih =>
      simp only [map, mapMembers_eq_map, List.map_map]
      refine congrArg object (List.map_congr_left fun member hmember => ?_)
      exact congrArg (Prod.mk member.1) (ih member.1 member.2 hmember)

theorem toValue_map (f : ν → μ) (g : μ → Number) (d : Document ν) :
    (d.map f).toValue g = d.toValue fun n => g (f n) := by
  induction d with
  | null | bool | number | string => rfl
  | array items ih =>
      simp only [map, mapItems_eq_map, toValue, itemsToValue_eq_map, List.map_map]
      exact congrArg Value.array (List.map_congr_left ih)
  | object members ih =>
      simp only [map, mapMembers_eq_map, toValue, membersToValue_eq_map, List.map_map]
      refine congrArg Value.object (List.map_congr_left fun member hmember => ?_)
      exact congrArg (Prod.mk member.1) (ih member.1 member.2 hmember)

end Document

namespace Value

@[simp]
theorem itemsToDocument_eq_map (lib : Library ν) (items : List Value) :
    itemsToDocument lib items = items.map (toDocument lib) :=
  eq_map_of_cons rfl (fun _ _ => rfl) items

@[simp]
theorem membersToDocument_eq_map (lib : Library ν) (members : Entries Value) :
    membersToDocument lib members = members.map fun member => (member.1, member.2.toDocument lib) :=
  eq_map_of_cons rfl (fun _ _ => rfl) members

@[simp]
theorem serializeItems_eq_map (s : Serializer α) (items : List Value) :
    serializeItems s items = items.map (serialize s) :=
  eq_map_of_cons rfl (fun _ _ => rfl) items

@[simp]
theorem serializeMembers_eq_map (s : Serializer α) (members : Entries Value) :
    serializeMembers s members = members.map fun member => (member.1, member.2.serialize s) :=
  eq_map_of_cons rfl (fun _ _ => rfl) members

end Value

end JsonRules
