import JsonRules.Number.Basic

/-!
# Decimals

A decimal is a significand and a power of ten.  `Decimal.toNumber` takes it to the nearest number.
-/

namespace JsonRules

structure Decimal where
  significand : Nat
  exponent : Int
  deriving DecidableEq, Inhabited

namespace Decimal

/-- Numbers lie well between `10 ^ -400` and `10 ^ 400`: beyond the one a decimal vanishes, beyond the
other it overflows. -/
def farExponent : Int := 400

/-- The number nearest to a decimal with the given sign.  A significand has at most
`significand.log2 + 1` digits; decimals far out of range are settled before any power of ten is
computed. -/
def toNumber (negative : Bool) (d : Decimal) : Number :=
  if d.significand = 0 then .finite negative .zero
  else if farExponent < d.exponent then .infinite negative
  else if d.exponent + d.significand.log2 < -farExponent then .finite negative .zero
  else if 0 ≤ d.exponent then
    .ofRatio negative (d.significand * 10 ^ d.exponent.toNat * unitsPerOne) 1
  else
    .ofRatio negative (d.significand * unitsPerOne) (10 ^ (-d.exponent).toNat)

def trailingZeros (d : Decimal) : Nat :=
  ((Nat.toDigits 10 d.significand).reverse.takeWhile (· == '0')).length

def trim (d : Decimal) : Decimal :=
  ⟨d.significand / 10 ^ d.trailingZeros, d.exponent + d.trailingZeros⟩

end Decimal

end JsonRules
