import JsonRules.Operator.Basic
import Std.Data.TreeMap

/-!
# Registries

A registry holds operators in slots and finds the slot of a name.  Slots never move: an operator
registered under a known name replaces the one in its slot, a new name gets the next slot.  Every
registry has an identity of its own, and so has a clone.
-/

namespace JsonRules

structure RegistryId where
  number : Nat
  deriving DecidableEq

/-- The identities that have not been given to a registry yet: those from `next` on. -/
structure IdSupply where
  next : Nat

namespace IdSupply

def initial : IdSupply := ⟨1⟩

def take : StateM IdSupply RegistryId := fun supply => (⟨supply.next⟩, ⟨supply.next + 1⟩)

end IdSupply

structure Slot (σ : Type) where
  name : String
  operator : Operator σ

structure Registry (σ : Type) where
  id : RegistryId
  slots : List (Slot σ)
  index : Std.TreeMap String Nat

namespace Registry

variable {σ : Type}

def withId (id : RegistryId) : Registry σ := ⟨id, [], ∅⟩

def resolve? (r : Registry σ) (name : String) : Option Nat := r.index[name]?

def get? (r : Registry σ) (slot : Nat) : Option (Operator σ) := r.slots[slot]?.map Slot.operator

def lookup? (r : Registry σ) (name : String) : Option (Operator σ) :=
  (r.resolve? name).bind r.get?

def contains (r : Registry σ) (name : String) : Bool := (r.resolve? name).isSome

/-- The names in the order of their slots. -/
def names (r : Registry σ) : List String := r.slots.map Slot.name

def size (r : Registry σ) : Nat := r.slots.length

def isEmpty (r : Registry σ) : Bool := r.slots.isEmpty

/-- The slot that an operator registered now under a name gets. -/
def slotFor (r : Registry σ) (name : String) : Nat := (r.resolve? name).getD r.size

def insert (r : Registry σ) (name : String) (operator : Operator σ) : Registry σ :=
  match r.resolve? name with
  | some slot => { r with slots := r.slots.set slot ⟨name, operator⟩ }
  | none =>
      { r with
        slots := r.slots ++ [⟨name, operator⟩]
        index := r.index.insert name r.size }

/-- Registers an operator, records that and answers its slot. -/
def register (name : String) (operator : Operator σ) : Run (Registry σ) Nat := do
  Run.emit (.registered name operator.isLazy)
  let r ← Run.get
  Run.set (r.insert name operator)
  pure (r.slotFor name)

/-- The other spellings of an operator come before its name. -/
def insertDefinition (r : Registry σ) (d : Definition σ) : Registry σ :=
  (d.aliases ++ [d.name]).foldl (fun r name => r.insert name d.operator) r

def empty : StateM IdSupply (Registry σ) := do
  pure (withId (← IdSupply.take))

def ofDefinitions (definitions : List (Definition σ)) : StateM IdSupply (Registry σ) := do
  pure (definitions.foldl insertDefinition (withId (← IdSupply.take)))

/-- A registry with the same operators in the same slots. -/
def clone (r : Registry σ) : StateM IdSupply (Registry σ) := do
  pure { r with id := ← IdSupply.take }

end Registry

end JsonRules
