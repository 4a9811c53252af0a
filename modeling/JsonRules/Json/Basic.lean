import JsonRules.Value.Basic
import JsonRules.Number.Arithmetic

/-!
# JSON

Values go to JSON and come from it through a library, which has a type of its own for numbers.  There
are two ways out.  `Value.toDocument` builds the document of a value, which the library may write, and
`Value.serialize` tells a serializer what to write.  Either way a number without fraction below
`2 ^ 63` is handed over as an integer, and what is not finite becomes null.
-/

namespace JsonRules

/-- A JSON document whose numbers are of type `ν`. -/
inductive Document (ν : Type) where
  | null
  | bool (b : Bool)
  | number (n : ν)
  | string (s : String)
  | array (items : List (Document ν))
  | object (members : List (String × Document ν))

instance {ν : Type} : Inhabited (Document ν) := ⟨.null⟩

/-- What is made of each kind of data when it is written.  Keys are texts, so writing cannot fail. -/
structure Serializer (α : Type) where
  unit : α
  bool : Bool → α
  int : Int64 → α
  real : Number → α
  text : String → α
  sequence : List α → α
  map : Entries α → α

/-- A library for JSON that keeps numbers in the type `ν`. -/
structure Library (ν : Type) where
  ofInt : Int64 → ν
  /-- None for a number that the library cannot keep. -/
  ofReal? : Number → Option ν
  toReal? : ν → Option Number
  /-- Writes data as text. -/
  writer : Serializer String
  text : Document ν → String
  read? : String → Option (Document ν)

namespace Library

/-- How deep containers may be nested in a text that is read. -/
def nestingLimit : Nat := 127

/-- The number that a number of a document stands for. -/
def number {ν : Type} (lib : Library ν) (n : ν) : Number := (lib.toReal? n).getD .nan

end Library

variable {ν α : Type}

namespace Number

/-- The least number of units beyond the range of integers in JSON. -/
def integerLimit : Nat := 2 ^ 63 * unitsPerOne

/-- The integer that is written for a number: it has no fraction and is below `2 ^ 63`. -/
def asInteger? : Number → Option Int64
  | x@(finite _ m) =>
      if x.isIntegral ∧ m.units < integerLimit then some x.toInt64 else none
  | _ => none

def toDocument (lib : Library ν) (x : Number) : Document ν :=
  match x.asInteger? with
  | some i => .number (lib.ofInt i)
  | none =>
      match lib.ofReal? x with
      | some n => .number n
      | none => .null

def serialize (s : Serializer α) (x : Number) : α :=
  if !x.isFinite then s.unit
  else
    match x.asInteger? with
    | some i => s.int i
    | none => s.real x

end Number

namespace Value

mutual

def toDocument (lib : Library ν) : Value → Document ν
  | null => .null
  | bool b => .bool b
  | number x => x.toDocument lib
  | string s => .string s
  | array items => .array (itemsToDocument lib items)
  | object members => .object (membersToDocument lib members)
termination_by structural v => v

def itemsToDocument (lib : Library ν) : List Value → List (Document ν)
  | [] => []
  | v :: rest => v.toDocument lib :: itemsToDocument lib rest
termination_by structural items => items

def membersToDocument (lib : Library ν) : Entries Value → Entries (Document ν)
  | [] => []
  | (key, v) :: rest => (key, v.toDocument lib) :: membersToDocument lib rest
termination_by structural members => members

end

mutual

def serialize (s : Serializer α) : Value → α
  | null => s.unit
  | bool b => s.bool b
  | number x => x.serialize s
  | string t => s.text t
  | array items => s.sequence (serializeItems s items)
  | object members => s.map (serializeMembers s members)
termination_by structural v => v

def serializeItems (s : Serializer α) : List Value → List α
  | [] => []
  | v :: rest => v.serialize s :: serializeItems s rest
termination_by structural items => items

def serializeMembers (s : Serializer α) : Entries Value → Entries α
  | [] => []
  | (key, v) :: rest => (key, v.serialize s) :: serializeMembers s rest
termination_by structural members => members

end

/-- The JSON text of a value. -/
def display (lib : Library ν) (v : Value) : String := v.serialize lib.writer

end Value

namespace Document

mutual

/-- The value of a document, given the numbers that its numbers stand for. -/
def toValue (number : ν → Number) : Document ν → Value
  | null => .null
  | bool b => .bool b
  | .number n => .number (number n)
  | string s => .string s
  | array items => .array (itemsToValue number items)
  | object members => .object (membersToValue number members)
termination_by structural d => d

def itemsToValue (number : ν → Number) : List (Document ν) → List Value
  | [] => []
  | d :: rest => d.toValue number :: itemsToValue number rest
termination_by structural items => items

def membersToValue (number : ν → Number) : Entries (Document ν) → Entries Value
  | [] => []
  | (key, d) :: rest => (key, d.toValue number) :: membersToValue number rest
termination_by structural members => members

end

end Document

/-- The value of a JSON text. -/
def Value.read? (lib : Library ν) (text : String) : Option Value :=
  (lib.read? text).map (Document.toValue lib.number)

end JsonRules
