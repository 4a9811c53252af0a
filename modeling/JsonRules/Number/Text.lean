import JsonRules.Number.Arithmetic
import JsonRules.Number.Layout
import JsonRules.Number.Numeral
import JsonRules.Text.Blank

/-!
# The text of a number

`Number.text` writes a number in the way rules show it, `Number.ofText` reads the text of a string
operand.  Reading never fails: what is no number reads as not-a-number, and an empty text as zero.
-/

namespace JsonRules.Number

/-- All places are written from a millionth up to below `10 ^ 21`. -/
def textLayout : Layout where
  least := -6
  greatest := 20
  tie := .up

/-- The text of a number; both zeros are written alike. -/
def text : Number → String
  | nan => "NaN"
  | infinite negative => if negative then "-Infinity" else "Infinity"
  | finite negative m =>
      if m.units = 0 then "0" else String.ofList (textLayout.writeFinite negative m)

/-- The value of a digit or letter in a positional system. -/
def digitValue? (radix : Nat) (c : Char) : Option Nat :=
  let value? :=
    if c.isDigit then some (c.toNat - '0'.toNat)
    else if 'a' ≤ c ∧ c ≤ 'z' then some (c.toNat - 'a'.toNat + 10)
    else if 'A' ≤ c ∧ c ≤ 'Z' then some (c.toNat - 'A'.toNat + 10)
    else none
  value?.filter (· < radix)

/-- Appends digits to a number, one rounded multiplication and addition for each. -/
def appendDigits (radix : Nat) (acc : Number) : List Char → Number
  | [] => acc
  | c :: rest =>
      match digitValue? radix c with
      | some d => appendDigits radix ((acc.mul (ofNat radix)).add (ofNat d)) rest
      | none => nan

def ofDigits (radix : Nat) (digits : List Char) : Number :=
  if digits.isEmpty then nan else appendDigits radix zero digits

/-- Reads a decimal, or a name of an infinity or of not-a-number in small or capital letters. -/
def parse? (cs : List Char) : Option Number :=
  let (sign, rest) := Numeral.readSign cs
  let name := rest.map Char.toLower
  if name = "nan".toList then some nan
  else if name = "inf".toList ∨ name = "infinity".toList then some (infinite (sign == some true))
  else do
    let numeral ← Numeral.read? cs
    if numeral.hasDigits then some numeral.toNumber else none

/-- The names are refused before, for their letters. -/
def ofNumeral (cs : List Char) : Number :=
  if cs.all Numeral.isCharacter then (parse? cs).getD nan else nan

def ofTrimmed : List Char → Number
  | [] => zero
  | '0' :: 'x' :: digits | '0' :: 'X' :: digits => ofDigits 16 digits
  | '0' :: 'o' :: digits | '0' :: 'O' :: digits => ofDigits 8 digits
  | '0' :: 'b' :: digits | '0' :: 'B' :: digits => ofDigits 2 digits
  | cs =>
      if cs = "Infinity".toList ∨ cs = "+Infinity".toList then infinite false
      else if cs = "-Infinity".toList then infinite true
      else ofNumeral cs

def ofText (s : String) : Number := ofTrimmed (Text.trim s.toList)

end JsonRules.Number
