import JsonRules.Value.Coercion

/-!
# Order of values

Two strings are ordered by their characters, any other two values by the numbers they coerce to.
-/

namespace JsonRules.Value

/-- None if a value that has to be a number is none. -/
def compare? : Value → Value → Option Ordering
  | string s, string t => some (compare s t)
  | v, w => v.toNumber.compare? w.toNumber

def lt (v w : Value) : Bool := v.compare? w == some .lt

def le (v w : Value) : Bool := v.compare? w == some .lt || v.compare? w == some .eq

def gt (v w : Value) : Bool := v.compare? w == some .gt

def ge (v w : Value) : Bool := v.compare? w == some .gt || v.compare? w == some .eq

end JsonRules.Value
