import JsonRules.Value.Coercion

/-!
# Equalities of values

Four relations.  `==` and `strictEq` compare the numbers of two values by value, `same` also takes
not-a-number for itself, and none of the three crosses types.  `looseEq` does: a boolean is compared
with the truth of a number or string and a number with the number a string reads as.  Objects are
compared member by member whatever their order.
-/

namespace JsonRules.Value

mutual

/-- Equality of the parts: the same length and, for every key of the one object, equal values under
it in both. -/
protected def beq : Value → Value → Bool
  | null, null => true
  | bool a, bool b => a == b
  | number x, number y => x.eq y
  | string s, string t => s == t
  | array items, array others => beqItems items others
  | object members, object others =>
      members.length == others.length && beqMembers members others
  | _, _ => false
termination_by structural v => v

def beqItems : List Value → List Value → Bool
  | [], [] => true
  | v :: rest, w :: others => v.beq w && beqItems rest others
  | _, _ => false
termination_by structural items => items

def beqMembers : Entries Value → Entries Value → Bool
  | [], _ => true
  | (key, v) :: rest, others =>
      (match others.lookup key with
        | some w => v.beq w
        | none => false) && beqMembers rest others
termination_by structural members => members

end

instance : BEq Value := ⟨Value.beq⟩

mutual

/-- The same type and the same contents, where `numbers` says which numbers agree. -/
def agree (numbers : Number → Number → Bool) : Value → Value → Bool
  | null, null => true
  | bool a, bool b => a == b
  | number x, number y => numbers x y
  | string s, string t => s == t
  | array items, array others =>
      items.length == others.length && agreeItems numbers items others
  | object members, object others =>
      members.length == others.length && agreeMembers numbers members others
  | _, _ => false
termination_by structural v => v

/-- Elements agree as far as both lists go. -/
def agreeItems (numbers : Number → Number → Bool) : List Value → List Value → Bool
  | v :: rest, w :: others => agree numbers v w && agreeItems numbers rest others
  | _, _ => true
termination_by structural items => items

/-- Every member has an agreeing one of its key among the others. -/
def agreeMembers (numbers : Number → Number → Bool) : Entries Value → Entries Value → Bool
  | [], _ => true
  | (key, v) :: rest, others =>
      (others.lookup key).any (agree numbers v) && agreeMembers numbers rest others
termination_by structural members => members

end

/-- Strict equality: the same type and the same value. -/
def strictEq : Value → Value → Bool := agree Number.eq

/-- Identity, where not-a-number is the same as itself. -/
def same : Value → Value → Bool := agree Number.same

mutual

/-- Loose equality.  Null equals null only, and a container never equals a scalar. -/
def looseEq : Value → Value → Bool
  | null, null => true
  | bool a, bool b => a == b
  | number x, number y => x.eq y
  | string s, string t => s == t
  | array items, array others => items.length == others.length && looseEqItems items others
  | object members, object others => strictEq (object members) (object others)
  | bool a, number y => a == truthy (number y)
  | bool a, string t => a == truthy (string t)
  | number x, bool b => truthy (number x) == b
  | string s, bool b => truthy (string s) == b
  | number x, string t => x.eq (.ofText t)
  | string s, number y => (Number.ofText s).eq y
  | _, _ => false
termination_by structural v => v

def looseEqItems : List Value → List Value → Bool
  | v :: rest, w :: others => looseEq v w && looseEqItems rest others
  | _, _ => true
termination_by structural items => items

end

end JsonRules.Value
