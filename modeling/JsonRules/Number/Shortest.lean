import JsonRules.Number.Decimal

/-!
# Shortest decimals

The decimal with the fewest digits that reads back as a given magnitude.  On the grid of decimals
with `n` digits only the two neighbours of the value need a test: if any point of the grid reads
back, one of them does.  The first grid with such a neighbour is taken, the nearer neighbour if both
read back, and `Tie` decides when they are equally near.
-/

namespace JsonRules

/-- Which of two equally near decimals is taken. -/
inductive Tie where
  | even
  | up
  deriving DecidableEq

namespace Tie

/-- Whether to take the upper one of the neighbours `low` and `low + 1`. -/
def takesUpper : Tie → Nat → Bool
  | even, low => low % 2 == 1
  | up, _ => true

end Tie

namespace Magnitude

/-- The exponent of the leading decimal digit of a magnitude that is not zero. -/
def leadingExponent (m : Magnitude) : Int :=
  if unitsPerOne ≤ m.units then
    (Nat.toDigits 10 (m.units / unitsPerOne)).length - 1
  else
    -((Nat.toDigits 10 ((unitsPerOne - 1) / m.units)).length : Int)

/-- Numerator and denominator of a magnitude measured in `10 ^ exponent`. -/
def scaled (m : Magnitude) (exponent : Int) : Nat × Nat :=
  if 0 ≤ exponent then (m.units, unitsPerOne * 10 ^ exponent.toNat)
  else (m.units * 10 ^ (-exponent).toNat, unitsPerOne)

def isReadFrom (m : Magnitude) (d : Decimal) : Bool :=
  decide (d.toNumber false = .finite false m)

/-- The decimal at a multiple of `10 ^ exponent` next to the magnitude that reads back, the nearer
one of two. -/
def onGrid? (tie : Tie) (m : Magnitude) (exponent : Int) : Option Decimal :=
  let (num, den) := m.scaled exponent
  let low := num / den
  let rest := num % den
  let below := Decimal.trim ⟨low, exponent⟩
  let above := Decimal.trim ⟨low + 1, exponent⟩
  let upper := den < 2 * rest || 2 * rest == den && tie.takesUpper low
  match m.isReadFrom below, m.isReadFrom above with
  | true, true => some (if upper then above else below)
  | true, false => some below
  | false, true => some above
  | false, false => none

/-- All digits of a magnitude: a unit is `5 ^ 1074` times `10 ^ -1074`. -/
def expansion (m : Magnitude) : Decimal := ⟨m.units * 5 ^ oneBits, -oneBits⟩

/-- The shortest decimal that reads as the magnitude; seventeen digits are always enough. -/
def shortest (tie : Tie) (m : Magnitude) : Decimal :=
  ((List.range 17).findSome? fun n : Nat => m.onGrid? tie (m.leadingExponent - n)).getD m.expansion

end Magnitude

end JsonRules
