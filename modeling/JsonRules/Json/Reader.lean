import JsonRules.Json.Token

/-!
# Reading JSON

A reader goes through the tokens once and keeps a stack of the containers that are still open.  The
height of the stack is the nesting depth, which has a limit.  Of several members with one key the last
value counts, at the place of the first.
-/

namespace JsonRules.Json

/-- A container that is still open: the elements so far, last first, or the members so far with the
key of the member that is being read. -/
inductive Frame where
  | array (done : List Json)
  | object (done : Entries Json) (key : String)

/-- What has been read, and so what may follow: `value` needs a value, `first` a value or the end of
an empty array, `member` a key or the end of an empty object, `key` a key, `colon` a colon, and
`after` a separator or the end of the innermost container. -/
inductive Reader where
  | value (stack : List Frame)
  | first (stack : List Frame)
  | member (stack : List Frame)
  | key (done : Entries Json) (stack : List Frame)
  | colon (done : Entries Json) (key : String) (stack : List Frame)
  | after (value : Json) (stack : List Frame)

namespace Reader

/-- The reader at the start of a value. -/
def start (limit : Nat) (stack : List Frame) : Token → Option Reader
  | .scalar j => some (after j stack)
  | .text s => some (after (.string s) stack)
  | .openArray => if stack.length < limit then some (first stack) else none
  | .openObject => if stack.length < limit then some (member stack) else none
  | _ => none

def step (limit : Nat) : Reader → Token → Option Reader
  | value stack, token => start limit stack token
  | first stack, .closeArray => some (after (.array []) stack)
  | first stack, token => start limit (.array [] :: stack) token
  | member stack, .closeObject => some (after (.object []) stack)
  | member stack, .text k => some (colon [] k stack)
  | key done stack, .text k => some (colon done k stack)
  | colon done k stack, .colon => some (value (.object done k :: stack))
  | after v (.array done :: stack), .comma => some (value (.array (v :: done) :: stack))
  | after v (.array done :: stack), .closeArray =>
      some (after (.array (v :: done).reverse) stack)
  | after v (.object done k :: stack), .comma => some (key (done.insert k v) stack)
  | after v (.object done k :: stack), .closeObject =>
      some (after (.object (done.insert k v)) stack)
  | _, _ => none

def run (limit : Nat) : Reader → List Token → Option Reader
  | reader, [] => some reader
  | reader, token :: rest => (reader.step limit token).bind fun next => run limit next rest

def result? : Reader → Option Json
  | after v [] => some v
  | _ => none

end Reader

/-- Reads a text as one value in which at most `limit` containers are nested. -/
def parse? (limit : Nat) (text : String) : Option Json := do
  let tokens ← tokens? text.toList
  let reader ← (Reader.value []).run limit tokens
  reader.result?

end JsonRules.Json
