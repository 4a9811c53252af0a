import JsonRules.Operator.Script

/-!
# Operators

An eager operator gets the values of its arguments, evaluated from left to right, and the data.  A
lazy operator gets the number of its arguments and the data and decides itself what to evaluate.
`σ` is the state of the host, which operators may change.
-/

namespace JsonRules

inductive Operator (σ : Type) where
  | eager (run : (args : List Value) → (data : Value) → Run σ (Except Error Value))
  | lazy (run : (operands : Nat) → (data : Value) → LazyScript σ Value)

namespace Operator

variable {σ : Type}

def isLazy : Operator σ → Bool
  | eager _ => false
  | lazy _ => true

/-- An eager operator that neither records events nor touches the host. -/
def ofFunction (f : (args : List Value) → (data : Value) → Except Error Value) : Operator σ :=
  eager fun args data => pure (f args data)

/-- The text that stands for an operator, of which only the kind can be shown. -/
def kindText : Operator σ → String
  | eager _ => "Operator::Eager(<fn>)"
  | lazy _ => "Operator::Lazy(<fn>)"

end Operator

/-- An operator with its name and its other spellings. -/
structure Definition (σ : Type) where
  name : String
  aliases : List String
  operator : Operator σ

/-- The argument at a position, null if there are fewer. -/
def argument (args : List Value) (i : Nat) : Value := (args[i]?).getD .null

end JsonRules
