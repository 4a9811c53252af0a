import JsonRules.Proofs.Json.Grammar

/-!
# What a library is relied on for

Statements about values that go through JSON hold of every library with certain laws.  A library keeps
numbers, it writes documents as it writes other data, its texts are those of the grammar, with integers
in digits, and it reads these texts, with numerals as the nearest numbers.  The last law is about
accuracy: a reader that rounds more than once for the sake of speed does not have it.
-/

namespace JsonRules

open Json (enclose)
open Json.Quoted (Literal)

namespace Serializer

/-- Numbers are written as numerals, and integers only have no point and no exponent. -/
structure WritesNumbers (s : Serializer String) : Prop where
  unit : s.unit = "null"
  int : ∀ i, s.int i = toString i.toInt
  real : ∀ x : Number, x.isFinite = true →
    ∃ n : Numeral, n.Strict ∧ ¬n.IsWhole ∧ n.toNumber = x ∧ (s.real x).toList = n.write

/-- What is written is JSON without blanks. -/
structure WritesJson (s : Serializer String) : Prop extends s.WritesNumbers where
  bool : ∀ b, s.bool b = if b then "true" else "false"
  text : ∀ t, Literal t (s.text t).toList
  sequence : ∀ parts, (s.sequence parts).toList = enclose '[' ']' (parts.map String.toList)
  map : ∀ members : Entries String, (s.map members).toList =
    enclose '\x7b' '\x7d' (members.map fun member =>
      (s.text member.1).toList ++ ':' :: member.2.toList)

end Serializer

namespace Library

variable {ν : Type}

/-- Integers of 64 bits and finite numbers are kept as they are. -/
structure KeepsNumbers (lib : Library ν) : Prop where
  toReal?_ofInt : ∀ i, lib.toReal? (lib.ofInt i) = some (.ofInt i.toInt)
  exists_ofReal? : ∀ x : Number, x.isFinite = true →
    ∃ n, lib.ofReal? x = some n ∧ lib.toReal? n = some x
  ofReal?_eq_none : ∀ x : Number, x.isFinite = false → lib.ofReal? x = none

/-- Documents are written by the printer that writes other data. -/
structure WritesAlike (lib : Library ν) : Prop where
  null : lib.text .null = lib.writer.unit
  bool : ∀ b, lib.text (.bool b) = lib.writer.bool b
  int : ∀ i, lib.text (.number (lib.ofInt i)) = lib.writer.int i
  real : ∀ x n, lib.ofReal? x = some n → lib.text (.number n) = lib.writer.real x
  string : ∀ s, lib.text (.string s) = lib.writer.text s
  array : ∀ items, lib.text (.array items) = lib.writer.sequence (items.map lib.text)
  object : ∀ members : Entries (Document ν), lib.text (.object members) =
    lib.writer.map (members.map fun member => (member.1, lib.text member.2))

/-- The texts of the grammar are read, and each numeral is read as the nearest number. -/
def ReadsJson (lib : Library ν) : Prop :=
  ∀ (d : Document Numeral) (text : String), d.Spelled nestingLimit text.toList →
    (lib.read? text).map (Document.map lib.toReal?) = some (d.map fun n => some n.toNumber)

end Library

end JsonRules
