import JsonRules.Builtin.Access
import JsonRules.Builtin.Arithmetic
import JsonRules.Builtin.Scoped
import JsonRules.Builtin.Sequence
import JsonRules.Builtin.ShortCircuit
import JsonRules.Builtin.Test
import JsonRules.Registry

/-!
# The built-in operators

All operators that an engine starts with, by family and in the order of their slots.
-/

namespace JsonRules.Builtin

variable {σ : Type}

/-- An eager operator that may fail and sees the data. -/
def reading (name : String) (f : List Value → Value → Except Error Value) : Definition σ :=
  ⟨name, [], .ofFunction f⟩

/-- An eager operator that may fail. -/
def checked (name : String) (f : List Value → Except Error Value) : Definition σ :=
  reading name fun args _ => f args

/-- An eager operator that gives a value for any arguments. -/
def total (name : String) (f : List Value → Value) : Definition σ :=
  checked name fun args => pure (f args)

def numeric (name : String) (f : List Value → Number) : Definition σ :=
  total name fun args => .number (f args)

def test (name : String) (f : List Value → Bool) : Definition σ :=
  total name fun args => .bool (f args)

def lazily (name : String) (aliases : List String) (f : Nat → Value → LazyScript σ Value) :
    Definition σ :=
  ⟨name, aliases, .lazy f⟩

/-- Records the JSON text of its first operand and gives it back. -/
def log : Operator σ :=
  .eager fun args _ => do
    let v := argument args 0
    Run.emit (.logged v.jsonText)
    pure (.ok v)

def inputFamily : List (Definition σ) :=
  [reading "var" var, reading "missing" missing, reading "missing_some" missingSome]

def logicalFamily : List (Definition σ) :=
  [lazily "and" [] conjunction, lazily "or" [] disjunction, test "!" negation, test "!!" isTrue]

def branchingFamily : List (Definition σ) :=
  [lazily "if" ["?:"] conditional]

def comparisonFamily : List (Definition σ) :=
  [test "==" equal, test "!=" unequal, test "===" strictEqual, test "!==" strictUnequal,
    test ">" greater, test ">=" greaterOrEqual, test "<" less, test "<=" lessOrEqual]

def arithmeticFamily : List (Definition σ) :=
  [numeric "+" add, numeric "-" subtract, numeric "*" multiply, numeric "/" divide,
    numeric "%" remainder, numeric "min" minimum, numeric "max" maximum]

/-- Out of range, `substr` panics; that it never does is a theorem. -/
def stringFamily : List (Definition σ) :=
  [total "cat" fun args => .string (cat args),
    checked "substr" fun args => return .string (← substr? args).get!]

def arrayFamily : List (Definition σ) :=
  [total "merge" fun args => .array (merge args), test "in" isIn, lazily "map" [] scopedMap,
    lazily "filter" [] scopedFilter, lazily "reduce" [] scopedReduce, lazily "all" [] scopedAll,
    lazily "some" [] scopedSome, lazily "none" [] scopedNone]

def miscFamily : List (Definition σ) := [⟨"log", [], log⟩]

def definitions : List (Definition σ) :=
  inputFamily ++ logicalFamily ++ branchingFamily ++ comparisonFamily ++ arithmeticFamily ++
    stringFamily ++ arrayFamily ++ miscFamily

def registry : StateM IdSupply (Registry σ) := Registry.ofDefinitions definitions

end JsonRules.Builtin
