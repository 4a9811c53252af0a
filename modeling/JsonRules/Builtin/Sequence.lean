import JsonRules.Value.Equality
import JsonRules.Json.Text
import JsonRules.Operator.Basic

/-!
# Texts and arrays

`cat` joins texts and `merge` arrays, `substr` cuts a text, and `in` looks for a text in a text or for
a value in an array.
-/

namespace JsonRules.Builtin

def cat (args : List Value) : String := String.join (args.map Value.toText)

/-- The elements that an operand of `merge` adds. -/
def elements : Value → List Value
  | .array items => items
  | v => [v]

/-- The elements of array operands and the other operands in one array. -/
def merge (args : List Value) : List Value := args.flatMap elements

def notNumeric (what : String) (operand : Value) : Error :=
  .invalidArgument "substr" (what ++ " must be numeric, got " ++ operand.jsonText)

/-- The integer part of a position in a text. -/
def position (what : String) (operand : Value) : Except Error Number :=
  let x := operand.toNumber
  if x.isNaN then .error (notNumeric what operand) else .ok x.trunc

/-- Where a cut begins in a text of `size` characters; a negative start counts from the end. -/
def cutBegin (size start : Number) : Number :=
  if start.lt .zero then (size.add start).max .zero else start.min size

/-- Where a cut from `first` on ends; a negative length stops before the end of the text. -/
def cutEnd (size first length : Number) : Number :=
  if length.lt .zero then (size.add length).max first else (first.add length).min size

/-- Where a cut of a text of `size` characters begins and ends; without a length, at the end. -/
def bounds (size : Nat) (start length : Value) : Except Error (Number × Number) := do
  let size := Number.ofNat size
  let start ← position "start" start
  let first := cutBegin size start
  match length with
  | .null => pure (first, size)
  | operand => do
      let length ← position "length" operand
      pure (first, cutEnd size first length)

/-- The characters from `first` on before `last`.  There are none to give if the two are in the wrong
order or out of range. -/
def slice? (cs : List Char) (first last : Nat) : Option (List Char) :=
  if first ≤ last ∧ last ≤ cs.length then some (cs.extract first last) else none

/-- A part of a text, counted in characters.  It has to be in range. -/
def substr? (args : List Value) : Except Error (Option String) := do
  let cs := (argument args 0).toText.toList
  let (first, last) ← bounds cs.length (argument args 1) (argument args 2)
  pure ((slice? cs first.toNat last.toNat).map String.ofList)

def occursIn (needle : List Char) : List Char → Bool
  | [] => needle.isEmpty
  | c :: rest => needle.isPrefixOf (c :: rest) || occursIn needle rest

def isIn (args : List Value) : Bool :=
  let needle := argument args 0
  match argument args 1 with
  | .string s => occursIn needle.toText.toList s.toList
  | .array items => items.any fun item => item.looseEq needle
  | _ => false

end JsonRules.Builtin
