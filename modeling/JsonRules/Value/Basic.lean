import JsonRules.Number.Basic
import JsonRules.Entries

/-!
# Values

Rules, the data they are applied to and their results are all of one type: JSON values, except that
numbers are any binary64 numbers, not-a-number and the infinities included.
-/

namespace JsonRules

inductive Value where
  | null
  | bool (b : Bool)
  | number (x : Number)
  | string (s : String)
  | array (items : List Value)
  | object (members : List (String × Value))

namespace Value

instance : Inhabited Value := ⟨null⟩

/-- The name of the type of a value in error messages. -/
def typeName : Value → String
  | null => "null"
  | bool _ => "boolean"
  | number _ => "number"
  | string _ => "string"
  | array _ => "array"
  | object _ => "object"

def isNull : Value → Bool
  | null => true
  | _ => false

def asString? : Value → Option String
  | string s => some s
  | _ => none

def asNumber? : Value → Option Number
  | number x => some x
  | _ => none

def asArray? : Value → Option (List Value)
  | array items => some items
  | _ => none

def asObject? : Value → Option (Entries Value)
  | object members => some members
  | _ => none

/-- The only member of an object: the shape of an operator call. -/
def singleEntry? : Value → Option (String × Value)
  | object [entry] => some entry
  | _ => none

end Value

end JsonRules
