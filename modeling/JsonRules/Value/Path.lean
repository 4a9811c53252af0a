import JsonRules.Value.Coercion
import JsonRules.Error

/-!
# Dotted paths

A path is a text of steps between dots.  A step descends into an object by key and into an array by
position; the empty path stays where it is.  Paths that lead nowhere are missing, which is no error.
-/

namespace JsonRules

namespace Path

/-- The parts of a text between its dots; a text without dots is one part. -/
def splitAtDots : List Char → List (List Char)
  | [] => [[]]
  | c :: rest =>
      if c = '.' then [] :: splitAtDots rest
      else
        match splitAtDots rest with
        | [] => [[c]]
        | part :: parts => (c :: part) :: parts

def steps (path : String) : List String := (splitAtDots path.toList).map String.ofList

/-- Positions in arrays are below this bound. -/
def positionBound : Nat := 2 ^ 64

/-- The digits of a step after an optional plus. -/
def positionDigits : List Char → List Char
  | '+' :: digits => digits
  | digits => digits

/-- The position that a step stands for in an array. -/
def position? (step : String) : Option Nat :=
  let digits := positionDigits step.toList
  let position := Nat.ofDigitChars 10 digits 0
  if digits ≠ [] ∧ digits.all Char.isDigit ∧ position < positionBound then some position else none

end Path

namespace Value

def step? (step : String) : Value → Option Value
  | object members => members.lookup step
  | array items => (Path.position? step).bind (items[·]?)
  | _ => none

def descend? : List String → Value → Option Value
  | [], v => some v
  | step :: rest, v => (v.step? step).bind (descend? rest)

def resolve? (data : Value) (path : String) : Option Value :=
  if path.isEmpty then some data else data.descend? (Path.steps path)

/-- The path that an operand of the named operator stands for. -/
def pathOf (operator : String) : Value → Except Error String
  | null => .ok ""
  | string s => .ok s
  | number x => .ok (number x).toText
  | bool b => .ok (bool b).toText
  | array items => .error (.invalidPath operator (array items).typeName)
  | object members => .error (.invalidPath operator (object members).typeName)

/-- The value under a path operand, or the default. -/
def lookup (data path default : Value) : Except Error Value := do
  let path ← path.pathOf "var"
  pure ((data.resolve? path).getD default)

/-- Absent or null. -/
def isMissing (data : Value) (path : String) : Bool :=
  match data.resolve? path with
  | none => true
  | some v => v.isNull

/-- The path operands under which there is nothing or null. -/
def missing (data : Value) : List Value → Except Error (List Value)
  | [] => .ok []
  | path :: rest => do
      let key ← path.pathOf "missing"
      let others ← missing data rest
      pure (if data.isMissing key then path :: others else others)

end Value

end JsonRules
