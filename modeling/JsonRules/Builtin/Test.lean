import JsonRules.Value.Equality
import JsonRules.Value.Order
import JsonRules.Operator.Basic

/-!
# Tests

Operators that answer a boolean about the values of their operands.  `<` and `<=` take a third operand
and then test whether the second lies between the others.
-/

namespace JsonRules.Builtin

def negation (args : List Value) : Bool := !(argument args 0).truthy

def isTrue (args : List Value) : Bool := (argument args 0).truthy

def related (relation : Value → Value → Bool) (args : List Value) : Bool :=
  relation (argument args 0) (argument args 1)

/-- A relation of the first two operands and, if there are more, of the second and the third. -/
def chained (relation : Value → Value → Bool) (args : List Value) : Bool :=
  related relation args &&
    (args.length ≤ 2 || relation (argument args 1) (argument args 2))

def equal : List Value → Bool := related Value.looseEq

def unequal (args : List Value) : Bool := !equal args

def strictEqual : List Value → Bool := related Value.strictEq

def strictUnequal (args : List Value) : Bool := !strictEqual args

def greater : List Value → Bool := related Value.gt

def greaterOrEqual : List Value → Bool := related Value.ge

def less : List Value → Bool := chained Value.lt

def lessOrEqual : List Value → Bool := chained Value.le

end JsonRules.Builtin
