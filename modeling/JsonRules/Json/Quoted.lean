/-!
# Quoted strings

A string of JSON between its quotes.  Writing escapes the quote, the backslash and the control
characters below the space, all else stays as it is.  Reading takes every escape of the format; an
escaped surrogate has to be followed by its other half.
-/

namespace JsonRules.Json.Quoted

/-- The letter after the backslash in a short escape. -/
def shortEscape? : Char → Option Char
  | '"' => some '"'
  | '\\' => some '\\'
  | '\x08' => some 'b'
  | '\x0c' => some 'f'
  | '\n' => some 'n'
  | '\r' => some 'r'
  | '\t' => some 't'
  | _ => none

def hexPair (n : Nat) : List Char := [Nat.digitChar (n / 16), Nat.digitChar (n % 16)]

def escape (c : Char) : List Char :=
  match shortEscape? c with
  | some letter => ['\\', letter]
  | none => if c.toNat < 0x20 then '\\' :: 'u' :: '0' :: '0' :: hexPair c.toNat else [c]

def write (cs : List Char) : List Char := '"' :: (cs.flatMap escape ++ ['"'])

def hexValue? (c : Char) : Option Nat :=
  if c.isDigit then some (c.toNat - '0'.toNat)
  else if 'a' ≤ c ∧ c ≤ 'f' then some (c.toNat - 'a'.toNat + 10)
  else if 'A' ≤ c ∧ c ≤ 'F' then some (c.toNat - 'A'.toNat + 10)
  else none

def unit? (a b c d : Char) : Option Nat := do
  let a ← hexValue? a
  let b ← hexValue? b
  let c ← hexValue? c
  let d ← hexValue? d
  some (((a * 16 + b) * 16 + c) * 16 + d)

def isHighSurrogate (n : Nat) : Bool := 0xd800 ≤ n && n < 0xdc00

def isLowSurrogate (n : Nat) : Bool := 0xdc00 ≤ n && n < 0xe000

def charOfUnit? (n : Nat) : Option Char :=
  if isHighSurrogate n || isLowSurrogate n then none else some (Char.ofNat n)

def charOfPair? (high low : Nat) : Option Char :=
  if isHighSurrogate high && isLowSurrogate low then
    some (Char.ofNat (0x10000 + (high - 0xd800) * 0x400 + (low - 0xdc00)))
  else none

def ofShortEscape? : Char → Option Char
  | '"' => some '"'
  | '\\' => some '\\'
  | '/' => some '/'
  | 'b' => some '\x08'
  | 'f' => some '\x0c'
  | 'n' => some '\n'
  | 'r' => some '\r'
  | 't' => some '\t'
  | _ => none

/-- Puts a character before the text read from the rest. -/
def prepend (c : Option Char) (read : Option (List Char × List Char)) :
    Option (List Char × List Char) := do
  let c ← c
  let (text, rest) ← read
  some (c :: text, rest)

/-- Reads up to and including the closing quote; answers the text and what follows.  `pending` is the
first half of a surrogate pair. -/
def readBody? : (pending : Option Nat) → List Char → Option (List Char × List Char)
  | pending, '\\' :: 'u' :: a :: b :: c :: d :: rest =>
      match unit? a b c d, pending with
      | none, _ => none
      | some low, some high => prepend (charOfPair? high low) (readBody? none rest)
      | some unit, none =>
          if isHighSurrogate unit then readBody? (some unit) rest
          else prepend (charOfUnit? unit) (readBody? none rest)
  | some _, _ => none
  | none, [] => none
  | none, '"' :: rest => some ([], rest)
  | none, '\\' :: letter :: rest => prepend (ofShortEscape? letter) (readBody? none rest)
  | none, c :: rest =>
      if c.toNat < 0x20 then none else prepend (some c) (readBody? none rest)

def read? (cs : List Char) : Option (List Char × List Char) := readBody? none cs

end JsonRules.Json.Quoted
