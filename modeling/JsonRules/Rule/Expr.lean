import JsonRules.Value.Equality
import JsonRules.Rule.Pointer

/-!
# Expression trees

A rule in the form in which it is evaluated: data, arrays with calls somewhere inside, and operator
calls.  A call remembers where it stands in the rule and in which slot of the registry its operator
was when the rule was compiled, if it was there.
-/

namespace JsonRules

structure CallSite where
  name : String
  slot : Option Nat
  path : Pointer
  deriving DecidableEq

inductive Expr where
  | literal (value : Value)
  | array (items : List Expr)
  | call (site : CallSite) (args : List Expr)

namespace Expr

instance : Inhabited Expr := ⟨literal .null⟩

def asLiteral? : Expr → Option Value
  | literal v => some v
  | _ => none

mutual

/-- The rule of a tree; arguments are always written as an array. -/
def toRule : Expr → Value
  | literal v => v
  | array items => .array (toRules items)
  | call site args => .object [(site.name, .array (toRules args))]
termination_by structural e => e

def toRules : List Expr → List Value
  | [] => []
  | e :: rest => e.toRule :: toRules rest
termination_by structural es => es

end

mutual

def nodeCount : Expr → Nat
  | literal _ => 1
  | array items => 1 + nodeCounts items
  | call _ args => 1 + nodeCounts args
termination_by structural e => e

def nodeCounts : List Expr → Nat
  | [] => 0
  | e :: rest => e.nodeCount + nodeCounts rest
termination_by structural es => es

end

mutual

/-- Equality of names, slots, places and literals; literals are compared as values. -/
protected def beq : Expr → Expr → Bool
  | literal v, literal w => v == w
  | array items, array others => beqList items others
  | call site args, call other others => site == other && beqList args others
  | _, _ => false
termination_by structural e => e

def beqList : List Expr → List Expr → Bool
  | [], [] => true
  | e :: rest, f :: others => e.beq f && beqList rest others
  | _, _ => false
termination_by structural es => es

end

instance : BEq Expr := ⟨Expr.beq⟩

end Expr

end JsonRules
