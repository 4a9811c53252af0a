import JsonRules.Number.Shortest

/-!
# The two ways to write a decimal

A decimal is written with all its places, or with one digit before the point and an exponent.  A
layout says for which exponents of the leading digit the places are written out.
-/

namespace JsonRules

namespace Decimal

def digits (d : Decimal) : List Char := Nat.toDigits 10 d.significand

def leadingExponent (d : Decimal) : Int := d.exponent + (d.digits.length - 1 : Nat)

/-- All places, with zeros up to the point or from the point on, and no point in an integer. -/
def positional (d : Decimal) : List Char :=
  let point := d.leadingExponent + 1
  if 0 ≤ d.exponent then d.digits ++ List.replicate d.exponent.toNat '0'
  else if 0 < point then d.digits.take point.toNat ++ '.' :: d.digits.drop point.toNat
  else '0' :: '.' :: (List.replicate (-point).toNat '0' ++ d.digits)

/-- One digit, the others after a point, and the exponent with its sign. -/
def scientific (d : Decimal) : List Char :=
  let fraction := d.digits.drop 1
  let exponent := d.leadingExponent
  d.digits.take 1 ++ (if fraction.isEmpty then [] else '.' :: fraction) ++
    'e' :: (if exponent < 0 then '-' else '+') :: Nat.toDigits 10 exponent.natAbs

end Decimal

/-- The decimals written with all their places have a leading digit of an exponent from `least` to
`greatest`.  `tie` settles which of two equally near decimals stands for a number. -/
structure Layout where
  least : Int
  greatest : Int
  tie : Tie

namespace Layout

def write (layout : Layout) (d : Decimal) : List Char :=
  if layout.least ≤ d.leadingExponent ∧ d.leadingExponent ≤ layout.greatest then d.positional
  else d.scientific

def sign (negative : Bool) : List Char := if negative then ['-'] else []

/-- The text of a magnitude that is not zero, with a sign. -/
def writeFinite (layout : Layout) (negative : Bool) (m : Magnitude) : List Char :=
  sign negative ++ layout.write (m.shortest layout.tie)

end Layout

end JsonRules
