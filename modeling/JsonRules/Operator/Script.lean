import JsonRules.Value.Basic
import JsonRules.Error
import JsonRules.Run

/-!
# Scripts

What an operator does that takes its operands unevaluated.  It asks for one thing after the other and
goes on with the answer: the outcome of an operand against some data, the rule an operand was written
as, whether a name is registered, or an action of the host.  Operands are known by their positions, so
an operator has no other way to look into them.
-/

namespace JsonRules

inductive Script (σ α : Type) where
  /-- The end, with a result. -/
  | done (result : α)
  /-- Evaluates an operand; an operand that is not there is null. -/
  | evaluate (operand : Nat) (data : Value) (next : Except Error Value → Script σ α)
  /-- The rule of an operand. -/
  | quote (operand : Nat) (next : Value → Script σ α)
  /-- Whether an operator has the name. -/
  | isRegistered (name : String) (next : Bool → Script σ α)
  /-- An action of the host; answers its state afterwards. -/
  | perform (action : Run σ Unit) (next : σ → Script σ α)

namespace Script

variable {σ α β : Type}

protected def bind : Script σ α → (α → Script σ β) → Script σ β
  | done a, f => f a
  | evaluate operand data next, f => evaluate operand data fun r => (next r).bind f
  | quote operand next, f => quote operand fun v => (next v).bind f
  | isRegistered name next, f => isRegistered name fun b => (next b).bind f
  | perform action next, f => perform action fun s => (next s).bind f

instance : Monad (Script σ) where
  pure := done
  bind := Script.bind

end Script

abbrev LazyScript (σ α : Type) : Type := ExceptT Error (Script σ) α

namespace LazyScript

variable {σ : Type}

/-- The value of an operand against some data; its failure is that of the script. -/
def evaluate (operand : Nat) (data : Value) : LazyScript σ Value :=
  ExceptT.mk (Script.evaluate operand data Script.done)

/-- The outcome of an operand, from which the script may recover. -/
def attempt (operand : Nat) (data : Value) : LazyScript σ (Except Error Value) :=
  ExceptT.lift (Script.evaluate operand data Script.done)

def quote (operand : Nat) : LazyScript σ Value :=
  ExceptT.lift (Script.quote operand Script.done)

def isRegistered (name : String) : LazyScript σ Bool :=
  ExceptT.lift (Script.isRegistered name Script.done)

end LazyScript

end JsonRules
