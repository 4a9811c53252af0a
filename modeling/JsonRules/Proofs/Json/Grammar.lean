import JsonRules.Proofs.Json.Document
import JsonRules.Proofs.Number.Layout
import JsonRules.Json.Text

/-!
# The grammar of JSON text

A text without blanks spells a document whose numbers are the numerals as they are written.  Strings may
be escaped in every way that the format has.  No key comes twice in an object, and the numerals are in
the range of finite numbers.
-/

namespace JsonRules

namespace Numeral

/-- The numerals of JSON: no plus in front, no zero before another digit, and digits on both sides of a
point. -/
structure Strict (n : Numeral) : Prop extends n.Legible where
  sign_ne : n.sign ≠ some false
  whole_ne_nil : n.whole ≠ []
  leading : n.whole = ['0'] ∨ StopsAt (· == '0') n.whole
  fraction_ne : n.fraction ≠ some []

theorem Spells.strict {n : Numeral} {negative : Bool} {text : List Char} (h : n.Spells negative text) :
    n.Strict where
  toLegible := h.legible
  sign_ne := by
    rw [h.sign_eq]
    cases negative <;> exact fun hsign => by cases hsign
  whole_ne_nil := h.whole_ne_nil
  leading := h.leading
  fraction_ne := h.fraction_ne

end Numeral

namespace Json.Quoted

/-- The ways to write a character between quotes: as it is, with a letter after a backslash, or with four
hexadecimal digits or twice as many for the two halves of a surrogate pair. -/
inductive SpellsChar : Char → List Char → Prop
  | plain {c : Char} (hcontrol : 0x20 ≤ c.toNat) (hquote : c ≠ '"') (hbackslash : c ≠ '\\') :
      SpellsChar c [c]
  | short {c letter : Char} (h : ofShortEscape? letter = some c) : SpellsChar c ['\\', letter]
  | unit {c w x y z : Char} {n : Nat} (hunit : unit? w x y z = some n)
      (hchar : charOfUnit? n = some c) : SpellsChar c ['\\', 'u', w, x, y, z]
  | pair {c w x y z w' x' y' z' : Char} {high low : Nat} (hhigh : unit? w x y z = some high)
      (hlow : unit? w' x' y' z' = some low) (hchar : charOfPair? high low = some c) :
      SpellsChar c ['\\', 'u', w, x, y, z, '\\', 'u', w', x', y', z']

/-- The characters are written one after the other. -/
inductive Spells : List Char → List Char → Prop
  | nil : Spells [] []
  | cons {c : Char} {cs text rest : List Char} (hchar : SpellsChar c text) (hrest : Spells cs rest) :
      Spells (c :: cs) (text ++ rest)

/-- The text is the string between its quotes. -/
def Literal (s : String) (text : List Char) : Prop :=
  ∃ body, Spells s.toList body ∧ text = '"' :: (body ++ ['"'])

end Json.Quoted

namespace Document

open Json (enclose)
open Json.Quoted (Literal)

/-- A member of an object with the texts of its key and its value. -/
structure Part where
  key : String
  keyText : List Char
  value : Document Numeral
  text : List Char

namespace Part

def member (part : Part) : String × Document Numeral := (part.key, part.value)

def write (part : Part) : List Char := part.keyText ++ ':' :: part.text

end Part

/-- The text is that of the document, in which at most so many containers are nested. -/
inductive Spelled : (nesting : Nat) → Document Numeral → List Char → Prop
  | null {nesting : Nat} : Spelled nesting .null "null".toList
  | bool {nesting : Nat} (b : Bool) :
      Spelled nesting (.bool b) (if b then "true".toList else "false".toList)
  | number {nesting : Nat} {n : Numeral} (hstrict : n.Strict)
      (hfinite : n.toNumber.isFinite = true) : Spelled nesting (.number n) n.write
  | string {nesting : Nat} {s : String} {text : List Char} (h : Literal s text) :
      Spelled nesting (.string s) text
  | array {nesting : Nat} {parts : List (Document Numeral × List Char)}
      (h : ∀ part ∈ parts, Spelled nesting part.1 part.2) :
      Spelled (nesting + 1) (.array (parts.map Prod.fst)) (enclose '[' ']' (parts.map Prod.snd))
  | object {nesting : Nat} {parts : List Part} (hdistinct : (parts.map Part.key).Nodup)
      (hkeys : ∀ part ∈ parts, Literal part.key part.keyText)
      (h : ∀ part ∈ parts, Spelled nesting part.value part.text) :
      Spelled (nesting + 1) (.object (parts.map Part.member))
        (enclose '\x7b' '\x7d' (parts.map Part.write))

end Document

end JsonRules
