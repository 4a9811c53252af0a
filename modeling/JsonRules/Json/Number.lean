import JsonRules.Json.Basic
import JsonRules.Number.Layout

/-!
# The numbers of JSON in use

The numbers of the documents in use are integers or finite numbers.  A real number is written with a
point or an exponent, so that it can be told from an integer.
-/

namespace JsonRules

inductive JsonNumber where
  | int (i : Int)
  | real (x : Number)

/-- The documents in use. -/
abbrev Json : Type := Document JsonNumber

namespace Json

@[match_pattern]
abbrev int (i : Int) : Json := .number (.int i)

end Json

namespace Number

/-- All places are written from a hundred-thousandth up to below `10 ^ 16`. -/
def jsonLayout : Layout where
  least := -5
  greatest := 15
  tie := .even

/-- A text with a point or an exponent stays as it is, any other gets a point. -/
def withPoint (text : List Char) : List Char :=
  if text.any fun c => c == '.' || c == 'e' then text else text ++ ".0".toList

def writeReal : Number → List Char
  | finite negative m =>
      withPoint
        (if m.units = 0 then Layout.sign negative ++ ['0'] else jsonLayout.writeFinite negative m)
  | _ => "null".toList

end Number

namespace JsonNumber

def ofReal? (x : Number) : Option JsonNumber := if x.isFinite then some (real x) else none

/-- Integers stand for the nearest number. -/
def toReal : JsonNumber → Number
  | int i => .ofInt i
  | real x => x

def text : JsonNumber → String
  | int i => toString i
  | real x => String.ofList x.writeReal

end JsonNumber

end JsonRules
