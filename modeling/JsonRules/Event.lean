/-!
# Events

A rule engine records what it does: the rules it compiles, the operators it takes in and applies, and
the texts that rules log.
-/

namespace JsonRules

inductive Event where
  /-- A rule was compiled to a tree of so many nodes. -/
  | compiled (nodes : Nat)
  /-- An operator was registered. -/
  | registered (name : String) (isLazy : Bool)
  /-- An operator is about to be applied to so many arguments. -/
  | applied (operator : String) (arguments : Nat)
  /-- A text was logged by a rule. -/
  | logged (text : String)
  deriving DecidableEq

end JsonRules
