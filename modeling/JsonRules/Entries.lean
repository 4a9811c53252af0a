/-!
# Entries in insertion order

The members of an object: keys with their values, in the order in which the keys were first inserted.
Lookup is `List.lookup`.
-/

namespace JsonRules

abbrev Entries (α : Type) : Type := List (String × α)

namespace Entries

variable {α : Type}

def keys (entries : Entries α) : List String := entries.map Prod.fst

/-- No key occurs twice. -/
def Distinct (entries : Entries α) : Prop := entries.keys.Nodup

/-- Sets a key: in its place if it is there, else at the end. -/
def insert (key : String) (value : α) : Entries α → Entries α
  | [] => [(key, value)]
  | entry :: rest =>
      if entry.1 = key then (key, value) :: rest else entry :: insert key value rest

theorem lookup_eq_some_iff {entries : Entries α} (h : entries.Distinct) {key : String}
    {value : α} : entries.lookup key = some value ↔ (key, value) ∈ entries := by
  induction entries with
  | nil => simp
  | cons entry rest ih =>
      obtain ⟨other, v⟩ := entry
      obtain ⟨hfresh, hrest⟩ := List.nodup_cons.mp h
      rw [List.lookup_cons, List.mem_cons]
      by_cases hkey : key = other
      · -- The key does not occur again, so its value is the first one.
        subst hkey
        have habsent : (key, value) ∉ rest := fun hmem =>
          hfresh (List.mem_map.mpr ⟨(key, value), hmem, rfl⟩)
        simp [habsent, eq_comm]
      · simp [beq_false_of_ne hkey, hkey, ih hrest]

theorem Distinct.perm {entries others : Entries α} (h : entries.Distinct)
    (hperm : entries.Perm others) : others.Distinct := (hperm.map Prod.fst).nodup h

end Entries

end JsonRules
