import JsonRules.Number.Decimal

/-!
# Numerals

The parts of a written decimal: a sign, digits before and after a point, and an exponent.  Reading is
strict about the order of the parts and takes the whole text; which parts have to be there is left to
the formats that use numerals.
-/

namespace JsonRules

/-- A sign is kept as it is written, `true` for a minus. -/
structure Numeral where
  sign : Option Bool
  whole : List Char
  fraction : Option (List Char)
  exponent : Option (Option Bool × List Char)

namespace Numeral

def isCharacter (c : Char) : Bool :=
  c.isDigit || c == '+' || c == '-' || c == '.' || c == 'e' || c == 'E'

def readSign : List Char → Option Bool × List Char
  | '+' :: rest => (some false, rest)
  | '-' :: rest => (some true, rest)
  | cs => (none, cs)

def readFraction : List Char → Option (List Char) × List Char
  | '.' :: rest => (some (rest.takeWhile Char.isDigit), rest.dropWhile Char.isDigit)
  | cs => (none, cs)

/-- What follows the mantissa: nothing, or the letter, a sign and at least one digit. -/
def readExponent? : List Char → Option (Option (Option Bool × List Char))
  | [] => some none
  | c :: rest =>
      if c = 'e' ∨ c = 'E' then
        let (sign, digits) := readSign rest
        if digits ≠ [] ∧ digits.all Char.isDigit then some (some (sign, digits)) else none
      else none

def read? (cs : List Char) : Option Numeral :=
  let (sign, cs) := readSign cs
  let whole := cs.takeWhile Char.isDigit
  let (fraction, rest) := readFraction (cs.dropWhile Char.isDigit)
  (readExponent? rest).map fun exponent => ⟨sign, whole, fraction, exponent⟩

def isNegative (n : Numeral) : Bool := n.sign == some true

def hasDigits (n : Numeral) : Bool := !(n.whole ++ n.fraction.getD []).isEmpty

def exponentValue (n : Numeral) : Int :=
  match n.exponent with
  | none => 0
  | some (sign, digits) =>
      let value := Nat.ofDigitChars 10 digits 0
      if sign = some true then -(value : Int) else value

def decimal (n : Numeral) : Decimal where
  significand := Nat.ofDigitChars 10 (n.whole ++ n.fraction.getD []) 0
  exponent := n.exponentValue - (n.fraction.getD []).length

def toNumber (n : Numeral) : Number := n.decimal.toNumber n.isNegative

end Numeral

end JsonRules
