import JsonRules.Proofs.Evaluation.Similar

/-!
# Rules and data up to the order of members

The order in which the members of objects are written has no influence on what a rule answers.
-/

namespace JsonRules

variable {σ : Type}

open JsonRules.Action JsonRules.Environment

namespace Expr

variable {env : Environment σ}

/-- With operators that ignore the order of members, similar trees mean the same. -/
theorem Similar.meaning
    (henv : ∀ site operator, env.operator site = .ok operator → operator.IgnoresOrder)
    {e f : Expr} (h : e.Similar f) (depth : Nat) {d₁ d₂ : Value} (hdata : d₁.Similar d₂) :
    Action.Similar Value.Similar (e.meaning env depth d₁) (f.meaning env depth d₂) := by
  have hnested : ∀ {x y : Action σ Value}, Action.Similar Value.Similar x y → ∀ depth,
      Action.Similar Value.Similar (env.nested depth x) (env.nested depth y) :=
    nested_related rfl fun _ _ => .throw _
  have hall : ∀ {es fs : List Expr} {depth : Nat}, List.Forall₂ Similar es fs →
      (∀ e ∈ es, ∀ f, e.Similar f → ∀ d₁ d₂, d₁.Similar d₂ →
        Action.Similar Value.Similar (e.meaning env depth d₁) (f.meaning env depth d₂)) →
      SimilarOperands (meanings env es depth) (meanings env fs depth) := by
    intro es fs depth hes ih
    induction hes with
    | nil => exact .nil
    | @cons e f es fs hef _ ihes =>
        exact .cons (ih e List.mem_cons_self f hef)
          (ihes fun e he => ih e (List.mem_cons_of_mem _ he))
  induction e generalizing f depth d₁ d₂ with
  | literal v =>
      cases h with
      | literal hv => exact .pure hv
  | array items ih =>
      cases h with
      | array hitems =>
          rw [meaning_array, meaning_array, ← bind_pure_comp, ← bind_pure_comp]
          have hoperands := hall hitems fun e he f hef d₁ d₂ hdata => ih e he hef (depth + 1) hdata
          have hvalues := values_similar hoperands hdata
          exact hnested (hvalues.bind fun vs ws hvs => .pure (.array hvs)) (depth + 1)
  | call site args ih =>
      cases h with
      | call _ hargs =>
          rw [meaning_call, meaning_call]
          have hoperands := hall hargs fun e he f hef d₁ d₂ hdata => ih e he hef (depth + 1) hdata
          refine hnested ?_ (depth + 1)
          rw [Environment.apply, Environment.apply, ← hargs.length_eq]
          cases hoperator : env.operator site with
          | error e => exact .throw e
          | ok operator =>
              refine (Similar.emit (.refl _)).bind fun _ _ _ => ?_
              exact henv site operator hoperator env _ _ _ _ d₁ d₂ hargs.length_eq hoperands hdata

end Expr

namespace Registry

variable {s : Registry σ}

theorem OnlyBuiltin.evaluate_similar (hs : s.OnlyBuiltin) {rule other : CompiledRule}
    (hrule : rule.Similar other) {d₁ d₂ : Value} (hdata : d₁.Similar d₂) (maxDepth : Option Nat)
    (host : σ) :
    (s.evaluate rule maxDepth d₁ host).Similar Value.Similar (s.evaluate other maxDepth d₂ host) := by
  have hcontext : Context.new s other maxDepth = Context.new s rule maxDepth := by
    rw [Context.new, Context.new, hrule.registryId]
  rw [evaluate_eq_meaning, evaluate_eq_meaning, hcontext]
  refine hrule.root.meaning (fun site operator hoperator => ?_) 0 hdata host
  obtain ⟨d, hd, rfl⟩ := hs.of_operator? (c := Context.new s rule maxDepth) rfl
    (CallSite.found_eq_ok.mp hoperator)
  exact Builtin.ignoresOrder_of_mem_definitions hd

/-- Reordering the members of objects in a rule and in the data changes nothing but the order of members.
Either both rules are refused for the same reason, or with the built-in operators both come to results
that are the same up to order and apply the same operators on the way; of failures, only the text that
`substr` quotes may differ. -/
theorem evaluate_reordered (hs : s.OnlyBuiltin) (r : Registry σ) {v w d₁ d₂ : Value}
    (hrule : v.Similar w) (hdata : d₁.Similar d₂) :
    (∃ e, r.compiled v = .error e ∧ r.compiled w = .error e) ∨
    ∃ rule other, r.compiled v = .ok rule ∧ r.compiled w = .ok other ∧ ∀ maxDepth host,
      (s.evaluate rule maxDepth d₁ host).Similar Value.Similar
        (s.evaluate other maxDepth d₂ host) ∧
      (s.evaluate rule maxDepth d₁ host).calls = (s.evaluate other maxDepth d₂ host).calls := by
  have hcompiled := r.compiled_similar hrule
  generalize r.compiled v = outcome, r.compiled w = partner at hcompiled
  cases hcompiled with
  | error he => exact .inl ⟨_, rfl, congrArg Except.error he.symm⟩
  | ok hsimilar =>
      refine .inr ⟨_, _, rfl, rfl, fun maxDepth host => ?_⟩
      have hrun := hs.evaluate_similar hsimilar hdata maxDepth host
      exact ⟨hrun, hrun.calls_eq⟩

/-- Logs the data and compares it with an object of the rule. -/
def comparing (object : Value) : Value :=
  .object [("===", .array [.object [("log", .object [("var", .string "")])],
    .object [("var", .array [.string "z", object])]])]

theorem comparing_similar {v w : Value} (h : v.Similar w) : (comparing v).Similar (comparing w) := by
  refine .of_reordered ?_ (.member [] [] _ (.element [_] [] (.member [] [] _
    (.element [_] [] h.reordered))))
  simp [comparing, Value.keyed_object_iff, Value.keyed_array_iff, Entries.Distinct, Entries.keys,
    Value.Keyed.string, h.keyed_left]

theorem evaluate_reordered_comparing : ∃ (r : Registry Unit) (v w : Value)
    (rule other : CompiledRule), r.OnlyBuiltin ∧ v ≠ w ∧ v.Similar w ∧
      r.compiled (comparing v) = .ok rule ∧ r.compiled (comparing w) = .ok other ∧
      ∀ maxDepth host,
        (r.evaluate rule maxDepth v host).Similar Value.Similar (r.evaluate other maxDepth w host) ∧
        (r.evaluate rule maxDepth v host).calls = (r.evaluate other maxDepth w host).calls := by
  have hbuiltin := onlyBuiltin_standard (σ := Unit) .initial
  have hkeyed : (Value.object [("x", .null), ("y", .bool true)]).Keyed := by
    simp [Value.keyed_object_iff, Entries.Distinct, Entries.keys, or_imp, forall_and,
      Value.Keyed.null, Value.Keyed.bool]
  have hsimilar := Value.Similar.of_reordered hkeyed (.members (.swap _ _ []))
  rcases evaluate_reordered hbuiltin _ (comparing_similar hsimilar) hsimilar with
    ⟨e, he, _⟩ | ⟨rule, other, hrule, hother, hrun⟩
  · cases he
  · refine ⟨_, _, _, rule, other, hbuiltin, ?_, hsimilar, hrule, hother, hrun⟩
    simp

end Registry

end JsonRules
