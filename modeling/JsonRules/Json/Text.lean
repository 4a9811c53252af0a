import JsonRules.Json.Reader

/-!
# The library in use

Text is compact, without blanks.  Documents are written as data is, and read by the reader.  With this
library values have the texts that rules log and that messages quote.
-/

namespace JsonRules

namespace Json

/-- The texts between two brackets, with commas between them. -/
def enclose (opening closing : Char) (parts : List (List Char)) : List Char :=
  opening :: ([','].intercalate parts ++ [closing])

def writeText (s : String) : List Char := Quoted.write s.toList

def writeMember (member : String × String) : List Char :=
  writeText member.1 ++ ':' :: member.2.toList

def writer : Serializer String where
  unit := "null"
  bool b := if b then "true" else "false"
  int i := (JsonNumber.int i.toInt).text
  real x := (JsonNumber.real x).text
  text s := String.ofList (writeText s)
  sequence parts := String.ofList (enclose '[' ']' (parts.map String.toList))
  map members := String.ofList (enclose '\x7b' '\x7d' (members.map writeMember))

mutual

def text : Json → String
  | .null => writer.unit
  | .bool b => writer.bool b
  | .number n => n.text
  | .string s => writer.text s
  | .array items => writer.sequence (itemTexts items)
  | .object members => writer.map (memberTexts members)
termination_by structural j => j

def itemTexts : List Json → List String
  | [] => []
  | j :: rest => text j :: itemTexts rest
termination_by structural items => items

def memberTexts : Entries Json → Entries String
  | [] => []
  | (key, j) :: rest => (key, text j) :: memberTexts rest
termination_by structural members => members

end

def write (j : Json) : List Char := j.text.toList

def library : Library JsonNumber where
  ofInt i := .int i.toInt
  ofReal? := JsonNumber.ofReal?
  toReal? n := some n.toReal
  writer := writer
  text := text
  read? := parse? Library.nestingLimit

def toValue (j : Json) : Value := Document.toValue library.number j

end Json

namespace Value

def toJson (v : Value) : Json := v.toDocument Json.library

def jsonText (v : Value) : String := v.display Json.library

def parseJson? (text : String) : Option Value := read? Json.library text

end Value

end JsonRules
