import JsonRules.Proofs.Rule.Tree
import JsonRules.Proofs.Value.Reordered

/-!
# Trees without array literals

A tree is expanded by making every array among its literals a node, with the elements as literals in
it, and so on inside.  An expanded tree has no other array than nodes, and it is written as the same
rule.
-/

namespace JsonRules

mutual

/-- The tree of a value in which arrays are nodes. -/
def Value.expanded : Value → Expr
  | .array items => .array (Value.expandedAll items)
  | v => .literal v
termination_by structural v => v

def Value.expandedAll : List Value → List Expr
  | [] => []
  | v :: rest => v.expanded :: Value.expandedAll rest
termination_by structural items => items

end

namespace Expr

mutual

/-- The tree with all its literals expanded. -/
def expand : Expr → Expr
  | literal v => v.expanded
  | array items => array (expandAll items)
  | call site args => call site (expandAll args)
termination_by structural e => e

def expandAll : List Expr → List Expr
  | [] => []
  | e :: rest => e.expand :: expandAll rest
termination_by structural es => es

end

theorem expandAll_eq_map (es : List Expr) : expandAll es = es.map expand :=
  eq_map_of_cons rfl (fun _ _ => rfl) es

end Expr

theorem Value.expandedAll_eq_map (items : List Value) :
    Value.expandedAll items = items.map Value.expanded :=
  eq_map_of_cons rfl (fun _ _ => rfl) items

theorem Value.toRule_expanded (v : Value) : v.expanded.toRule = v := by
  induction v with
  | array items ih =>
      rw [Value.expanded, Expr.toRule, Expr.toRules_eq_map, Value.expandedAll_eq_map, List.map_map]
      exact congrArg Value.array ((List.map_congr_left ih).trans (List.map_id' items))
  | _ => rfl

theorem Expr.toRule_expand (e : Expr) : e.expand.toRule = e.toRule := by
  have hall : ∀ {es : List Expr}, (∀ e ∈ es, e.expand.toRule = e.toRule) →
      toRules (expandAll es) = toRules es := by
    intro es ih
    rw [toRules_eq_map, toRules_eq_map, expandAll_eq_map, List.map_map]
    exact List.map_congr_left ih
  induction e with
  | literal v => exact v.toRule_expanded
  | array items ih => rw [expand, toRule, toRule, hall ih]
  | call site args ih => rw [expand, toRule, toRule, hall ih]

end JsonRules
