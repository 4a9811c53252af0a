import JsonRules.Value.Coercion
import JsonRules.Operator.Basic

/-!
# Short-circuit operators

`and` and `or` evaluate their operands in order up to the one that decides, and give its value.  `if`
evaluates conditions up to the first true one and then the branch that goes with it.
-/

namespace JsonRules.Builtin

variable {σ : Type}

/-- The value of the first operand for which `decides` holds, else of the last one, else `last`. -/
def firstDeciding (decides : Value → Bool) (data last : Value) : List Nat → LazyScript σ Value
  | [] => pure last
  | operand :: rest => do
      let v ← LazyScript.evaluate operand data
      if decides v then pure v else firstDeciding decides data v rest

/-- The operands in order up to the one that decides; there has to be one. -/
def shortCircuit (name : String) (decides : Value → Bool) (operands : Nat) (data : Value) :
    LazyScript σ Value :=
  if operands = 0 then throw (.noOperands name)
  else firstDeciding decides data .null (List.range operands)

def conjunction (operands : Nat) (data : Value) : LazyScript σ Value :=
  shortCircuit "and" (fun v => !v.truthy) operands data

def disjunction (operands : Nat) (data : Value) : LazyScript σ Value :=
  shortCircuit "or" Value.truthy operands data

/-- Conditions and branches in turn, with a default at the end if the number is odd. -/
def branches (data : Value) : List Nat → LazyScript σ Value
  | condition :: branch :: rest => do
      let v ← LazyScript.evaluate condition data
      if v.truthy then LazyScript.evaluate branch data else branches data rest
  | [default] => LazyScript.evaluate default data
  | [] => pure .null

def conditional (operands : Nat) (data : Value) : LazyScript σ Value :=
  branches data (List.range operands)

end JsonRules.Builtin
