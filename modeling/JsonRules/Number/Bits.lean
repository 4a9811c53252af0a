import JsonRules.Number.Basic

/-!
# The interchange format

The 64 bits of a number: sign, biased exponent and fraction.  A magnitude of `units` whose lowest
kept bit has exponent `s` has the bits `s * 2 ^ 52 + units / 2 ^ s`, subnormal or not, since the
leading bit of a normal number adds the one by which its biased exponent exceeds `s`.
-/

namespace JsonRules.Number

def signBit (negative : Bool) : Nat := if negative then 2 ^ 63 else 0

/-- The bits of a number; not-a-number has the quiet bit and no other in its fraction. -/
def toBits : Number → Nat
  | nan => 0x7ff8000000000000
  | infinite negative => signBit negative + 0x7ff0000000000000
  | finite negative m =>
      let shift := m.units.log2 - 52
      signBit negative + (shift * 2 ^ 52 + m.units / 2 ^ shift)

/-- The number of 64 bits; higher bits are ignored. -/
def ofBits (bits : Nat) : Number :=
  let negative := bits / 2 ^ 63 % 2 == 1
  let exponent := bits / 2 ^ 52 % 2 ^ 11
  let fraction := bits % 2 ^ 52
  if exponent = 2047 then
    if fraction = 0 then infinite negative else nan
  else if exponent = 0 then ofRatio negative fraction 1
  else ofRatio negative ((2 ^ 52 + fraction) * 2 ^ (exponent - 1)) 1

end JsonRules.Number
