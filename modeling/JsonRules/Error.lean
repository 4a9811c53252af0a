/-!
# Errors

What can go wrong while a rule is compiled or evaluated, and the message for each cause.
-/

namespace JsonRules

inductive Error where
  /-- An operator call in the rule has a shape that cannot be compiled. -/
  | malformedRule (path reason : String)
  /-- No operator has the name of a call when the call is reached. -/
  | unknownOperator (name path : String)
  /-- An operand that the operator has no use for. -/
  | invalidArgument (operator reason : String)
  /-- Any other failure of an operator. -/
  | evaluationFailed (text : String)
  /-- Calls and evaluated arrays are nested too deep. -/
  | depthLimitExceeded (limit : Nat)
  deriving DecidableEq

namespace Error

def message : Error → String
  | malformedRule path reason => "malformed rule at \"" ++ path ++ "\": " ++ reason
  | unknownOperator name path => "unknown operator \"" ++ name ++ "\" at \"" ++ path ++ "\""
  | invalidArgument operator reason =>
      "invalid argument for \"" ++ operator ++ "\": " ++ reason
  | evaluationFailed text => text
  | depthLimitExceeded limit =>
      "evaluation exceeded the maximum depth of " ++ limit.repr

/-- The argument of the named operator is an object that is no operator call. -/
def malformedArguments (path name : String) : Error :=
  malformedRule path
    ("arguments of \"" ++ name ++ "\" must be an array, a scalar or a single operation")

/-- A path operand is a container. -/
def invalidPath (operator typeName : String) : Error :=
  invalidArgument operator ("path must be a string or a number, got " ++ typeName)

/-- A short-circuit operator without operands. -/
def noOperands (operator : String) : Error :=
  evaluationFailed ("\"" ++ operator ++ "\" needs at least one operand")

end Error

end JsonRules
