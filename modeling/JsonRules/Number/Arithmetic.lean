import JsonRules.Number.Basic

/-!
# Arithmetic

Each operation takes the exact result and rounds it once.  Invalid operations give not-a-number,
division of a nonzero number by zero and overflow give an infinity.  A remainder has the sign of the
dividend, and so has a zero one.  Casts to integers saturate.
-/

namespace JsonRules.Number

def neg : Number → Number
  | nan => nan
  | infinite negative => infinite (!negative)
  | finite negative m => finite (!negative) m

/-- An exact zero sum is negative only if both terms are. -/
def add : Number → Number → Number
  | nan, _ => nan
  | _, nan => nan
  | infinite a, infinite b => if a = b then infinite a else nan
  | infinite a, finite .. => infinite a
  | finite .., infinite b => infinite b
  | finite a m, finite b n =>
      let sum := signedUnits a m + signedUnits b n
      if sum = 0 then finite (a && b) .zero
      else ofRatio (decide (sum < 0)) sum.natAbs 1

def sub (x y : Number) : Number := x.add y.neg

def mul : Number → Number → Number
  | nan, _ => nan
  | _, nan => nan
  | infinite a, infinite b => infinite (a != b)
  | infinite a, finite b n => if n.units = 0 then nan else infinite (a != b)
  | finite a m, infinite b => if m.units = 0 then nan else infinite (a != b)
  | finite a m, finite b n => ofRatio (a != b) (m.units * n.units) unitsPerOne

def div : Number → Number → Number
  | nan, _ => nan
  | _, nan => nan
  | infinite _, infinite _ => nan
  | infinite a, finite b _ => infinite (a != b)
  | finite a _, infinite b => finite (a != b) .zero
  | finite a m, finite b n =>
      if n.units = 0 then
        if m.units = 0 then nan else infinite (a != b)
      else ofRatio (a != b) (m.units * unitsPerOne) n.units

def rem : Number → Number → Number
  | nan, _ => nan
  | _, nan => nan
  | infinite _, _ => nan
  | finite a m, infinite _ => finite a m
  | finite a m, finite _ n =>
      if n.units = 0 then nan else ofRatio a (m.units % n.units) 1

def wholePart (m : Magnitude) : Nat := m.units / unitsPerOne

/-- The integer part, rounded towards zero. -/
def trunc : Number → Number
  | finite negative m => ofRatio negative (wholePart m * unitsPerOne) 1
  | x => x

def isIntegral : Number → Bool
  | finite _ m => m.units % unitsPerOne == 0
  | _ => false

/-- The integer part of a signed magnitude. -/
def signedWhole (negative : Bool) (m : Magnitude) : Int :=
  if negative then -(wholePart m : Int) else wholePart m

/-- The cast to an integer of 64 bits: the integer part, or the end of the range beyond which it lies.
Not-a-number becomes zero. -/
def toInt64 : Number → Int64
  | nan => 0
  | infinite negative => if negative then Int64.minValue else Int64.maxValue
  | finite negative m => Int64.ofIntClamp (signedWhole negative m)

def toInt (x : Number) : Int := x.toInt64.toInt

/-- The greatest index. -/
def maxIndex : Nat := 2 ^ 64 - 1

/-- The cast to an index, an unsigned integer of 64 bits, in the same way. -/
def toNat : Number → Nat
  | nan => 0
  | infinite negative => if negative then 0 else maxIndex
  | finite negative m => Min.min (signedWhole negative m).toNat maxIndex

/-- The smaller of two numbers, the first if neither is smaller.  If one is not a number, it is the
other. -/
def min (x y : Number) : Number := if x.isNaN || y.lt x then y else x

/-- The larger of two numbers, the first if neither is larger.  If one is not a number, it is the
other. -/
def max (x y : Number) : Number := if x.isNaN || x.lt y then y else x

end JsonRules.Number
