import JsonRules.Value.Coercion
import JsonRules.Operator.Basic

/-!
# Scoped operators

The first operand is evaluated against the data and gives the elements, none if it is no array.  The
second is evaluated against each element in turn, which is all it sees.
-/

namespace JsonRules.Builtin

variable {σ : Type}

def source (data : Value) : LazyScript σ (List Value) := do
  let v ← LazyScript.evaluate 0 data
  pure (v.asArray?.getD [])

def body (element : Value) : LazyScript σ Value := LazyScript.evaluate 1 element

def mapElements : List Value → LazyScript σ (List Value)
  | [] => pure []
  | element :: rest => do
      let v ← body element
      let vs ← mapElements rest
      pure (v :: vs)

def filterElements : List Value → LazyScript σ (List Value)
  | [] => pure []
  | element :: rest => do
      let v ← body element
      let kept ← filterElements rest
      pure (if v.truthy then element :: kept else kept)

/-- What the body of `reduce` sees. -/
def reduction (current accumulator : Value) : Value :=
  .object [("current", current), ("accumulator", accumulator)]

def reduceElements (accumulator : Value) : List Value → LazyScript σ Value
  | [] => pure accumulator
  | element :: rest => do
      let v ← body (reduction element accumulator)
      reduceElements v rest

/-- Whether the body has the truth `wanted` for some element; later elements are left alone. -/
def anyElement (wanted : Bool) : List Value → LazyScript σ Bool
  | [] => pure false
  | element :: rest => do
      let v ← body element
      if v.truthy = wanted then pure true else anyElement wanted rest

def scopedMap (_ : Nat) (data : Value) : LazyScript σ Value := do
  let elements ← source data
  let values ← mapElements elements
  pure (.array values)

def scopedFilter (_ : Nat) (data : Value) : LazyScript σ Value := do
  let elements ← source data
  let kept ← filterElements elements
  pure (.array kept)

/-- The initial value is the third operand, evaluated after the source. -/
def scopedReduce (_ : Nat) (data : Value) : LazyScript σ Value := do
  let elements ← source data
  let initial ← LazyScript.evaluate 2 data
  reduceElements initial elements

/-- True of no elements. -/
def scopedAll (_ : Nat) (data : Value) : LazyScript σ Value := do
  let elements ← source data
  let refuted ← anyElement false elements
  pure (.bool !refuted)

def scopedSome (_ : Nat) (data : Value) : LazyScript σ Value := do
  let elements ← source data
  let found ← anyElement true elements
  pure (.bool found)

def scopedNone (_ : Nat) (data : Value) : LazyScript σ Value := do
  let elements ← source data
  let found ← anyElement true elements
  pure (.bool !found)

end JsonRules.Builtin
