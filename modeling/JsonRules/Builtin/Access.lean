import JsonRules.Value.Path
import JsonRules.Operator.Basic

/-!
# Access to the data

`var` gives the value under a path or a default, `missing` the paths that lead nowhere or to null, and
`missing_some` the same unless enough of the paths lead somewhere.
-/

namespace JsonRules.Builtin

def var (args : List Value) (data : Value) : Except Error Value :=
  data.lookup (argument args 0) (argument args 1)

/-- The paths among the operands of `missing`: the elements of a leading array or all operands. -/
def pathOperands (args : List Value) : List Value :=
  match args with
  | .array paths :: _ => paths
  | _ => args

def missing (args : List Value) (data : Value) : Except Error Value := do
  let absent ← data.missing (pathOperands args)
  pure (.array absent)

def noPathArray (v : Value) : Error :=
  .invalidArgument "missing_some"
    ("second operand must be an array of paths, got " ++ v.typeName)

def missingSome (args : List Value) (data : Value) : Except Error Value := do
  let need := (argument args 0).toNumber
  match argument args 1 with
  | .array paths => do
      let absent ← data.missing paths
      let present := Number.ofNat (paths.length - absent.length)
      pure (.array (if need.le present then [] else absent))
  | v => throw (noPathArray v)

end JsonRules.Builtin
