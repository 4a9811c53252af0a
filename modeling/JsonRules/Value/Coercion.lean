import JsonRules.Value.Basic
import JsonRules.Number.Text

/-!
# Coercions

The truth, the number and the text of any value.  All three are total.
-/

namespace JsonRules.Value

/-- False are null, `false`, zero, not-a-number, the empty string and the empty array; every object is
true. -/
def truthy : Value → Bool
  | null => false
  | bool b => b
  | number x => !(x.isZero || x.isNaN)
  | string s => !s.isEmpty
  | array items => !items.isEmpty
  | object _ => true

/-- An array of one element counts as that element, any other container is not a number. -/
def toNumber : Value → Number
  | null => .zero
  | bool b => if b then .ofNat 1 else .zero
  | number x => x
  | string s => .ofText s
  | array [v] => v.toNumber
  | array _ => .nan
  | object _ => .nan
termination_by structural v => v

mutual

/-- The elements of an array are joined by commas, nulls among them left empty. -/
def toText : Value → String
  | null => "null"
  | bool b => if b then "true" else "false"
  | number x => x.text
  | string s => s
  | array items => ",".intercalate (elementTexts items)
  | object _ => "[object Object]"
termination_by structural v => v

def elementTexts : List Value → List String
  | [] => []
  | v :: rest => (if v.isNull then "" else v.toText) :: elementTexts rest
termination_by structural items => items

end

end JsonRules.Value
