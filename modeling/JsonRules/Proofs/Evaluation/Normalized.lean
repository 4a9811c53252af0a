import JsonRules.Proofs.Evaluation.Alike
import JsonRules.Proofs.Evaluation.Agreement
import JsonRules.Proofs.Evaluation.Restored
import JsonRules.Proofs.Operator.Builtin
import JsonRules.Proofs.Rule.Normal

/-!
# Evaluating normal forms

The places of the calls of a tree show only in the failure that a call has no operator.  So a rule and
its normal form, which are compiled to the same tree at other places, evaluate alike with the built-in
operators.
-/

namespace JsonRules

variable {σ : Type}

/-- The failure without the place at which an operator was missing. -/
def Error.withoutPath : Error → Error
  | unknownOperator name _ => unknownOperator name ""
  | e => e

namespace Registry.OnlyBuiltin

variable {s : Registry σ}

theorem of_operator? (h : s.OnlyBuiltin) {c : Context σ} (hregistry : c.registry = s)
    {site : CallSite} {operator : Operator σ} (hoperator : c.operator? site = some operator) :
    operator.IsBuiltin := by
  rw [Context.operator?, hregistry] at hoperator
  cases hslot : site.slot with
  | none =>
      rw [hslot] at hoperator
      exact h.of_lookup? hoperator
  | some slot =>
      rw [hslot] at hoperator
      cases hbound : c.bound with
      | true =>
          rw [hbound] at hoperator
          exact h.of_get? hoperator
      | false =>
          rw [hbound] at hoperator
          exact h.of_lookup? hoperator

theorem failsFast (h : s.OnlyBuiltin) {c : Context σ} (hregistry : c.registry = s)
    {site : CallSite} {operator : Operator σ}
    (hoperator : c.environment.operator site = .ok operator) :
    operator.FailsFast Error.IsOperatorFailure :=
  (h.of_operator? hregistry (CallSite.found_eq_ok.mp hoperator)).failsFast

end Registry.OnlyBuiltin

/-- A call is looked up by its slot and its name, and its place shows only if that fails. -/
theorem Context.environment_alike (c : Context σ) :
    c.environment.Alike Error.withoutPath (c.environment.comap CallSite.withoutPath) where
  operator site := by
    change (site.found (c.operator? site)).mapError _ =
      (site.withoutPath.found (c.operator? site)).mapError _
    cases c.operator? site with
    | none => rfl
    | some operator => rfl
  isRegistered := rfl
  maxDepth := rfl

namespace Registry

variable {s : Registry σ}

theorem meaning_withoutPaths_alike (hs : s.OnlyBuiltin) {c : Context σ} (hregistry : c.registry = s)
    (e : Expr) (depth : Nat) (data : Value) :
    Action.Alike Error.withoutPath (e.meaning c.environment depth data)
      (e.withoutPaths.meaning c.environment depth data) := by
  have hpaths : e.withoutPaths.meaning c.environment =
      e.meaning (c.environment.comap CallSite.withoutPath) :=
    Expr.meaning_mapSites (f := CallSite.withoutPath) (fun _ => rfl) e
  rw [hpaths]
  exact Expr.meaning_alike c.environment_alike (fun _ _ => hs.failsFast hregistry) e depth data

theorem evaluate_alike (hs : s.OnlyBuiltin) {rule again : CompiledRule}
    (hroot : again.root.withoutPaths = rule.root.withoutPaths)
    (hid : again.registryId = rule.registryId) (maxDepth : Option Nat) (data : Value) (host : σ) :
    (s.evaluate again maxDepth data host).Alike Error.withoutPath
      (s.evaluate rule maxDepth data host) := by
  have hcontext : Context.new s again maxDepth = Context.new s rule maxDepth := by
    rw [Context.new, Context.new, hid]
  have hbefore := meaning_withoutPaths_alike hs (c := Context.new s rule maxDepth) rfl
    rule.root 0 data
  have hafter := meaning_withoutPaths_alike hs (c := Context.new s rule maxDepth) rfl
    again.root 0 data
  rw [hroot] at hafter
  rw [evaluate_eq_meaning, evaluate_eq_meaning, hcontext]
  exact hafter.trans hbefore.symm host

/-- A compiled rule is written in normal form.  Compiling that gives the same tree but for the places of
the calls, so it is written the same way again, and with the built-in operators it evaluates alike. -/
theorem compiled_normal_form {r : Registry σ} {v : Value} {rule : CompiledRule}
    (h : r.compiled v = .ok rule) :
    rule.toRule = v.normal ∧
    ∃ again, r.compiled rule.toRule = .ok again ∧
      again.root.withoutPaths = rule.root.withoutPaths ∧
      again.root.nodeCount = rule.root.nodeCount ∧
      again.registryId = rule.registryId ∧
      again.toRule = rule.toRule ∧
      ∀ s : Registry σ, s.OnlyBuiltin → ∀ maxDepth data host,
        (s.evaluate again maxDepth data host).Alike Error.withoutPath
          (s.evaluate rule maxDepth data host) := by
  obtain ⟨hroot, hid⟩ := ofRule_of_compiled h
  obtain ⟨root, hagain, hpaths⟩ := (Expr.compiledBy_of_ofRule hroot).recompiles .root
  refine ⟨Expr.toRule_of_ofRule hroot, ⟨root, r.id⟩, ?_, hpaths,
    Expr.nodeCount_eq_of_withoutPaths hpaths, hid.symm,
    Expr.toRule_eq_of_withoutPaths hpaths, ?_⟩
  · rw [compiled, CompiledRule.toRule, hagain]
    rfl
  · intro s hs maxDepth data host
    exact evaluate_alike hs hpaths hid.symm maxDepth data host

/-- A single argument, data within the arguments of a call, and an operator that is missing. -/
theorem compiled_normal_form_nested :
    ∃ (r : Registry Unit) (rule again : CompiledRule), r.OnlyBuiltin ∧
      r.compiled (.object [("!", .object [("any", .array [.array [.null], .object []])])]) =
        .ok rule ∧
      rule.toRule =
        .object [("!", .array [.object [("any", .array [.array [.null], .object []])]])] ∧
      r.compiled rule.toRule = .ok again ∧
      again.root.withoutPaths = rule.root.withoutPaths ∧
      ∀ maxDepth data host,
        (r.evaluate again maxDepth data host).Alike Error.withoutPath
          (r.evaluate rule maxDepth data host) := by
  have hbuiltin := onlyBuiltin_standard (σ := Unit) .initial
  have hcase := compiled_normal_form (σ := Unit) (r := (Builtin.registry.run .initial).1)
    (v := .object [("!", .object [("any", .array [.array [.null], .object []])])]) rfl
  obtain ⟨hnormal, again, hagain, hpaths, _, _, _, halike⟩ := hcase
  exact ⟨_, _, again, hbuiltin, rfl, hnormal, hagain, hpaths, halike _ hbuiltin⟩

end Registry

end JsonRules
