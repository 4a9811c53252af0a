import JsonRules.Json.Number
import JsonRules.Json.Quoted
import JsonRules.Number.Numeral

/-!
# Tokens of JSON text

Brackets, separators, texts and the remaining scalars.  A number is the longest run of characters
that numbers are made of, and that run has to be a numeral of the format as a whole.
-/

namespace JsonRules.Json

inductive Token where
  | openArray
  | closeArray
  | openObject
  | closeObject
  | comma
  | colon
  | text (s : String)
  | scalar (j : Json)

def isBlank (c : Char) : Bool := c == ' ' || c == '\t' || c == '\n' || c == '\r'

/-- The numerals of the format: no plus in front, digits on both sides of a point, and no zero before
another digit. -/
def isStrict (n : Numeral) : Bool :=
  n.sign != some false && n.fraction != some [] &&
    match n.whole with
    | [] => false
    | ['0'] => true
    | first :: _ => first != '0'

/-- The integer of a numeral that needs no rounding: without point and exponent, in the range of 64
bits, signed or not, and no negative zero. -/
def exactInt? (n : Numeral) : Option Int :=
  if n.fraction.isNone && n.exponent.isNone then
    let magnitude : Int := n.decimal.significand
    let i := if n.isNegative then -magnitude else magnitude
    if (n.isNegative && i == 0) || i < -2 ^ 63 || 2 ^ 64 ≤ i then none else some i
  else none

/-- Any other numeral is read as the nearest number. -/
def ofNumeral (n : Numeral) : JsonNumber :=
  match exactInt? n with
  | some i => .int i
  | none => .real n.toNumber

def ofNumeral? (n : Numeral) : Option JsonNumber :=
  if isStrict n && n.toNumber.isFinite then some (ofNumeral n) else none

/-- The token at the start of a text without blanks in front, and what follows it. -/
def readToken? : List Char → Option (Token × List Char)
  | '[' :: rest => some (.openArray, rest)
  | ']' :: rest => some (.closeArray, rest)
  | '\x7b' :: rest => some (.openObject, rest)
  | '\x7d' :: rest => some (.closeObject, rest)
  | ',' :: rest => some (.comma, rest)
  | ':' :: rest => some (.colon, rest)
  | '"' :: rest => (Quoted.read? rest).map fun (cs, rest) => (.text (String.ofList cs), rest)
  | 'n' :: 'u' :: 'l' :: 'l' :: rest => some (.scalar .null, rest)
  | 't' :: 'r' :: 'u' :: 'e' :: rest => some (.scalar (.bool true), rest)
  | 'f' :: 'a' :: 'l' :: 's' :: 'e' :: rest => some (.scalar (.bool false), rest)
  | cs => do
      let numeral ← Numeral.read? (cs.takeWhile Numeral.isCharacter)
      let number ← ofNumeral? numeral
      some (.scalar (.number number), cs.dropWhile Numeral.isCharacter)

/-- The tokens of a text that is no longer than `bound`. -/
def tokensWithin? : (bound : Nat) → List Char → Option (List Token)
  | _, [] => some []
  | 0, _ :: _ => none
  | bound + 1, c :: rest =>
      if isBlank c then tokensWithin? bound rest
      else do
        let (token, rest) ← readToken? (c :: rest)
        let tokens ← tokensWithin? bound rest
        some (token :: tokens)

def tokens? (cs : List Char) : Option (List Token) := tokensWithin? cs.length cs

end JsonRules.Json
