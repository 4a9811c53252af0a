import JsonRules.Value.Coercion
import JsonRules.Operator.Basic

/-!
# Arithmetic on operands

Operands count as the numbers they coerce to.  Nothing fails: what has no result is not a number.
-/

namespace JsonRules.Builtin

def numberArgument (args : List Value) (i : Nat) : Number := (argument args i).toNumber

def add (args : List Value) : Number :=
  (args.map Value.toNumber).foldl Number.add .zero

/-- The difference of the first two operands, or the negative of a single one. -/
def subtract (args : List Value) : Number :=
  if args.length < 2 then (numberArgument args 0).neg
  else (numberArgument args 0).sub (numberArgument args 1)

def multiply (args : List Value) : Number :=
  ((args.drop 1).map Value.toNumber).foldl Number.mul (numberArgument args 0)

def divide (args : List Value) : Number :=
  (numberArgument args 0).div (numberArgument args 1)

def remainder (args : List Value) : Number :=
  (numberArgument args 0).rem (numberArgument args 1)

/-- Chooses one of two numbers, unless one is not a number. -/
def chooseNumber (choose : Number → Number → Number) (x y : Number) : Number :=
  if x.isNaN || y.isNaN then .nan else choose x y

def minimum (args : List Value) : Number :=
  (args.map Value.toNumber).foldl (chooseNumber Number.min) (.infinite false)

def maximum (args : List Value) : Number :=
  (args.map Value.toNumber).foldl (chooseNumber Number.max) (.infinite true)

end JsonRules.Builtin
