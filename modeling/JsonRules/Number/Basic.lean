import JsonRules.Number.Magnitude

/-!
# Binary64 numbers

A number is not-a-number, an infinity or a signed magnitude; zero keeps its sign.  Comparison is that
of the values: the two zeros are equal and not-a-number compares with nothing, itself included.
Structural equality `=` is finer and tells the zeros apart.
-/

namespace JsonRules

inductive Number where
  | nan
  | infinite (negative : Bool)
  | finite (negative : Bool) (magnitude : Magnitude)
  deriving DecidableEq

namespace Number

def zero : Number := finite false .zero

instance : Inhabited Number := ⟨zero⟩

/-- The number nearest to `num / den` units with the given sign, an infinity beyond the range. -/
def ofRatio (negative : Bool) (num den : Nat) : Number :=
  match Magnitude.nearest? num den with
  | some magnitude => finite negative magnitude
  | none => infinite negative

def ofInt (i : Int) : Number :=
  ofRatio (decide (i < 0)) (i.natAbs * unitsPerOne) 1

def ofNat (n : Nat) : Number := ofInt n

def isNaN : Number → Bool
  | nan => true
  | _ => false

def isFinite : Number → Bool
  | finite .. => true
  | _ => false

def isZero : Number → Bool
  | finite _ m => m.units == 0
  | _ => false

/-- The value of a signed magnitude as an integer number of units. -/
def signedUnits (negative : Bool) (m : Magnitude) : Int :=
  if negative then -(m.units : Int) else m.units

/-- The order of the values; none if one of them is not a number. -/
def compare? : Number → Number → Option Ordering
  | nan, _ => none
  | _, nan => none
  | infinite a, infinite b => some (compare b a)
  | infinite a, finite .. => some (if a then .lt else .gt)
  | finite .., infinite b => some (if b then .gt else .lt)
  | finite a m, finite b n => some (compare (signedUnits a m) (signedUnits b n))

def eq (x y : Number) : Bool := x.compare? y == some .eq

def lt (x y : Number) : Bool := x.compare? y == some .lt

def le (x y : Number) : Bool := x.lt y || x.eq y

/-- Equality of the values, where not-a-number is the same as itself. -/
def same (x y : Number) : Bool := x.eq y || x.isNaN && y.isNaN

end Number

end JsonRules
