import JsonRules.Proofs.Evaluation.Agreement
import JsonRules.Proofs.Evaluation.Limit
import JsonRules.Proofs.Rule.Expanded

/-!
# Evaluating expanded trees

An array literal is its own value, and an array node of its elements has the same value but is one level
deeper for each level of arrays.  So a tree does what its expansion does, unless that meets the limit.
-/

namespace JsonRules

variable {σ α β : Type} {maxDepth : Option Nat}

namespace Action

/-- The first run does what the second does, unless the second one fails at the limit. -/
def Avoids (maxDepth : Option Nat) (x y : Action σ α) : Prop :=
  ∀ host, x.run host = y.run host ∨
    ∃ limit, maxDepth = some limit ∧ (y.run host).result = .error (.depthLimitExceeded limit)

namespace Avoids

theorem refl (x : Action σ α) : Avoids maxDepth x x := fun _ => .inl rfl

theorem throw {limit : Nat} (h : maxDepth = some limit) (x : Action σ α) :
    Avoids maxDepth x (throw (.depthLimitExceeded limit)) := fun _ => .inr ⟨limit, h, rfl⟩

theorem bind {x y : Action σ α} {next after : α → Action σ β} (h : Avoids maxDepth x y)
    (hnext : ∀ a, Avoids maxDepth (next a) (after a)) :
    Avoids maxDepth (x >>= next) (y >>= after) := by
  intro host
  rw [ExceptT.run_bind, ExceptT.run_bind, Run.bind_apply, Run.bind_apply]
  rcases h host with hrun | ⟨limit, hlimit, hresult⟩
  · rw [hrun]
    cases (y.run host).result with
    | error e => exact .inl rfl
    | ok a =>
        rcases hnext a (y.run host).state with hrun' | ⟨limit, hlimit, hresult⟩
        · dsimp only
          rw [hrun']
          exact .inl rfl
        · exact .inr ⟨limit, hlimit, hresult⟩
  · rw [hresult]
    exact .inr ⟨limit, hlimit, rfl⟩

end Avoids

theorem sequential_avoids (maxDepth : Option Nat) :
    Sequential (fun _ => True) (fun {α : Type} (x y : Action σ α) => Avoids maxDepth x y) :=
  ⟨fun _ => Avoids.refl _, fun h hnext => h.bind hnext⟩

end Action

open JsonRules.Action JsonRules.Environment

namespace Environment

variable {env : Environment σ}

theorem nested_avoids (depth : Nat) {x y : Action σ α} (h : Avoids env.maxDepth x y) :
    Avoids env.maxDepth (env.nested depth x) (env.nested depth y) :=
  nested_related rfl (fun _ hlimit => Avoids.throw hlimit _) h depth

/-- A step may also be left on the level where it is. -/
theorem avoids_nested (depth : Nat) {x y : Action σ α} (h : Avoids env.maxDepth x y) :
    Avoids env.maxDepth x (env.nested depth y) := by
  rw [nested]
  cases hexceeded : env.maxDepth.filter (· < depth) with
  | none => exact h
  | some limit => exact .throw (Option.filter_eq_some_iff.mp hexceeded).1 x

end Environment

/-- A value is what its expansion evaluates to, unless that meets the limit. -/
theorem Value.avoids_expanded (env : Environment σ) (v : Value) : ∀ (depth : Nat) (data : Value),
    Avoids env.maxDepth (pure v) (v.expanded.meaning env depth data) := by
  have hall : ∀ {items : List Value} {depth : Nat} {data : Value}, (∀ v ∈ items,
      Avoids env.maxDepth (pure v) (v.expanded.meaning env depth data)) →
      Avoids env.maxDepth (pure items)
        (values (Expr.meanings env (Value.expandedAll items) depth) data) := by
    intro items depth data ih
    induction items with
    | nil => exact .refl _
    | cons v items ihrest =>
        rw [Value.expandedAll, values_meanings_cons]
        have hrest := ihrest fun w hw => ih w (List.mem_cons_of_mem v hw)
        exact (ih v List.mem_cons_self).bind fun v => hrest.bind fun vs => .refl (pure (v :: vs))
  induction v with
  | array items ih =>
      intro depth data
      rw [Value.expanded, Expr.meaning_array, ← bind_pure_comp]
      refine avoids_nested (depth + 1) ?_
      exact (hall fun v hv => ih v hv (depth + 1) data).bind fun vs => .refl (pure (Value.array vs))
  | _ => exact fun _ _ => .refl _

namespace Expr

variable {env : Environment σ}

/-- With operators that go through with failures, a tree means what its expansion means, unless that
meets the limit. -/
theorem avoids_expand {P : Error → Prop}
    (hfast : ∀ site operator, env.operator site = .ok operator → operator.FailsFast P) (e : Expr) :
    ∀ (depth : Nat) (data : Value),
      Avoids env.maxDepth (e.meaning env depth data) (e.expand.meaning env depth data) := by
  have hR := sequential_avoids (σ := σ) env.maxDepth
  have hall : ∀ {es : List Expr} {depth : Nat}, (∀ e ∈ es, ∀ data,
      Avoids env.maxDepth (e.meaning env depth data) (e.expand.meaning env depth data)) →
      List.Forall₂ (fun x y => ∀ data, Avoids env.maxDepth (x data) (y data))
        (meanings env es depth) (meanings env (expandAll es) depth) := by
    intro es depth ih
    refine meanings_related ?_
    rw [expandAll_eq_map, List.forall₂_map_right_iff]
    exact List.forall₂_same.mpr ih
  induction e with
  | literal v => exact v.avoids_expanded env
  | array items ih =>
      intro depth data
      rw [expand, meaning_array, meaning_array, ← bind_pure_comp, ← bind_pure_comp]
      have hitems := hall fun e he => ih e he (depth + 1)
      refine nested_avoids (depth + 1) ?_
      exact (values_related hitems hR.congruence data).bind fun vs => .refl _
  | call site args ih =>
      intro depth data
      rw [expand, meaning_call, meaning_call]
      have hargs := hall fun e he => ih e he (depth + 1)
      have hrules : (expandAll args).map toRule = args.map toRule := by
        rw [expandAll_eq_map, List.map_map]
        exact List.map_congr_left fun e _ => e.toRule_expand
      rw [apply_of_toRule_eq hrules]
      refine nested_avoids (depth + 1) (apply_related hargs hR rfl ?_ args data)
      cases hoperator : env.operator site with
      | ok operator =>
          exact .found hoperator hoperator ((hfast site operator hoperator).mono fun _ _ => trivial)
      | error error => exact .missing hoperator hoperator (.refl _)

end Expr

namespace Context

/-- Array literals are as good as array nodes of their elements.  With the built-in operators a tree and
its expansion do the same without a limit, and with one wherever the expansion stays within it; both are
written as the same rule. -/
theorem evaluate_expand {c : Context σ} (hc : c.registry.OnlyBuiltin) (e : Expr) (data : Value)
    (host : σ) :
    e.expand.toRule = e.toRule ∧
    (c.maxDepth = none →
      (e.evaluate data).run ⟨c, host⟩ = (e.expand.evaluate data).run ⟨c, host⟩) ∧
    ∀ limit, c.maxDepth = some limit →
      ((e.expand.evaluate data).run ⟨c, host⟩).result ≠ .error (.depthLimitExceeded limit) →
      (e.evaluate data).run ⟨c, host⟩ = (e.expand.evaluate data).run ⟨c, host⟩ := by
  have havoids := e.avoids_expand (fun _ _ => hc.failsFast rfl) c.depth data host
  rw [e.actsAs_evaluate c data host, e.expand.actsAs_evaluate c data host]
  refine ⟨e.toRule_expand, fun hfree => ?_, fun limit hlimit hwithin => ?_⟩
  · rcases havoids with hrun | ⟨limit, hlimit, _⟩
    · rw [hrun]
    · cases hfree.symm.trans hlimit
  · rcases havoids with hrun | ⟨other, hother, hresult⟩
    · rw [hrun]
    · obtain rfl := Option.some.inj (hlimit.symm.trans hother)
      exact absurd hresult hwithin

/-- The source of the elements is an array literal with another one inside. -/
def copying : Value :=
  .object [("map", .array [.array [.null, .array [.bool true]], .object [("var", .string "")]])]

theorem evaluate_expand_copying : ∃ (r : Registry Unit) (rule : CompiledRule),
    r.OnlyBuiltin ∧ r.compiled copying = .ok rule ∧
      ((rule.root.expand.evaluate .null).run ⟨new r rule (some 3), ()⟩).result ≠
        .error (.depthLimitExceeded 3) ∧
      (rule.root.evaluate .null).run ⟨new r rule (some 3), ()⟩ =
        (rule.root.expand.evaluate .null).run ⟨new r rule (some 3), ()⟩ := by
  obtain ⟨r, hbuiltin⟩ : ∃ r : Registry Unit, r.OnlyBuiltin :=
    ⟨_, Registry.onlyBuiltin_standard .initial⟩
  obtain ⟨rule, hrule⟩ : ∃ rule, r.compiled copying = .ok rule := ⟨_, rfl⟩
  let expanded : CompiledRule := ⟨rule.root.expand, rule.registryId⟩
  have hdepth : expanded.root.depth ≤ 3 := by
    cases hrule
    exact Nat.le_refl 3
  have hwithin := hbuiltin.evaluate_ne_of_depth_le hdepth .null ()
  exact ⟨r, rule, hbuiltin, hrule, hwithin, (evaluate_expand hbuiltin _ .null ()).2.2 3 rfl hwithin⟩

end Context

end JsonRules
