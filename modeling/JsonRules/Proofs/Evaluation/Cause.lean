import JsonRules.Proofs.Evaluation.Limit
import JsonRules.Proofs.Evaluation.Plain
import JsonRules.Proofs.Evaluation.Standard

/-!
# Causes of failures

With the built-in operators every failure of an evaluation has its cause in the tree: a call of an
unknown name, nesting beyond the limit, a short-circuit operator without operands, or a call of one of
the few operators that refuse operands.  Where none of these is in the tree, the evaluation succeeds on
all data.
-/

namespace JsonRules

variable {σ : Type}

namespace Error

/-- The failure of an evaluation with the registry and the limit has its cause in the tree. -/
inductive CausedIn (s : Registry σ) (maxDepth : Option Nat) (tree : Expr) : Error → Prop
  | unknown {site : CallSite} {args : List Expr} (hnode : tree.HasNode (.call site args))
      (hname : s.contains site.name = false) :
      CausedIn s maxDepth tree (.unknownOperator site.name site.path.text)
  | tooDeep {limit : Nat} (hlimit : maxDepth = some limit) (hdepth : limit < tree.depth) :
      CausedIn s maxDepth tree (.depthLimitExceeded limit)
  | noOperands {site : CallSite} (hnode : tree.HasNode (.call site []))
      (hname : site.name = "and" ∨ site.name = "or") :
      CausedIn s maxDepth tree (.noOperands site.name)
  | refused {site : CallSite} {args : List Expr} {reason : String}
      (hnode : tree.HasNode (.call site args)) (hname : site.name ∈ Builtin.refusing) :
      CausedIn s maxDepth tree (.invalidArgument site.name reason)
  | refusedPath {site : CallSite} {args : List Expr} {reason : String}
      (hnode : tree.HasNode (.call site args)) (hname : site.name = "missing_some") :
      CausedIn s maxDepth tree (.invalidArgument "missing" reason)

variable {s : Registry σ} {maxDepth : Option Nat} {tree : Expr} {e : Error}

theorem ReportedBy.causedIn {site : CallSite} {args : List Expr}
    (h : e.ReportedBy site.name args.length) (hnode : tree.HasNode (.call site args)) :
    e.CausedIn s maxDepth tree := by
  cases h with
  | refused hname h =>
      obtain ⟨reason, rfl⟩ := h
      exact .refused hnode hname
  | refusedPath hname h =>
      obtain ⟨reason, rfl⟩ := h
      exact .refusedPath hnode hname
  | noOperands hname h =>
      obtain rfl := List.length_eq_zero_iff.mp h
      exact .noOperands hnode hname

theorem CausedIn.ne_malformedRule (h : e.CausedIn s maxDepth tree) (path reason : String) :
    e ≠ .malformedRule path reason := by
  rintro rfl
  cases h

end Error

namespace Expr

/-- No call in the tree can fail with the built-in operators in the registry: each has an operator, none
of those refuses operands, and none is left without the operands that it needs. -/
def Safe (s : Registry σ) (tree : Expr) : Prop :=
  ∀ site args, tree.HasNode (call site args) → s.contains site.name = true ∧
    site.name ∉ Builtin.refusing ∧ (site.name = "and" ∨ site.name = "or" → args ≠ [])

theorem Safe.not_causedIn {s : Registry σ} {tree : Expr} (h : tree.Safe s) (e : Error) :
    ¬e.CausedIn s none tree := by
  intro he
  cases he with
  | unknown hnode hname =>
      rw [(h _ _ hnode).1] at hname
      cases hname
  | tooDeep hlimit _ => cases hlimit
  | noOperands hnode hname => exact (h _ _ hnode).2.2 hname rfl
  | refused hnode hname => exact (h _ _ hnode).2.1 hname
  | refusedPath hnode hname =>
      refine (h _ _ hnode).2.1 ?_
      rw [hname]
      decide

end Expr

namespace Registry

variable {r s : Registry σ} {v : Value} {rule : CompiledRule}

theorem IsStandard.evaluate_agree (hr : r.IsStandard) (hs : s.IsStandard)
    (h : r.compiled v = .ok rule) (maxDepth : Option Nat) (data : Value) (host : σ) :
    FailsIn (Error.CausedIn s maxDepth rule.root) (s.evaluate rule none data host).result := by
  have hagree : Action.Agree (Error.CausedIn s maxDepth rule.root) host
      (rule.root.meaning (s.byName none) 0 data) (rule.root.meaning (s.byName none) 0 data) := by
    refine Expr.meaning_agree rfl (fun site args hnode operator hoperator => ?_)
      (fun site args hnode error herror => ?_) 0 data
    · have hplain := hs.plain_of_lookup? (CallSite.found_eq_ok.mp hoperator)
      exact ⟨_, hplain, fun e he => he.causedIn hnode⟩
    · obtain ⟨hnone, rfl⟩ := CallSite.found_eq_error.mp herror
      exact .unknown hnode (hs.indexed.lookup?_eq_none_iff.mp hnone)
  rw [evaluate_eq_byName (hr.later hs) h]
  exact hagree.fails

/-- A rule compiled and evaluated with the built-in operators fails only for causes in its tree, and
never as malformed.  Without a limit and such causes it succeeds on all data. -/
theorem evaluate_causes (hr : r.IsStandard) (hs : s.IsStandard) (h : r.compiled v = .ok rule)
    (data : Value) (host : σ) :
    (∀ maxDepth e, (s.evaluate rule maxDepth data host).result = .error e →
      e.CausedIn s maxDepth rule.root ∧ ∀ path reason, e ≠ .malformedRule path reason) ∧
    (rule.root.Safe s → ∃ w, (s.evaluate rule none data host).result = .ok w) := by
  have hfree : ∀ maxDepth, FailsIn (Error.CausedIn s maxDepth rule.root)
      (s.evaluate rule none data host).result :=
    fun maxDepth => hr.evaluate_agree hs h maxDepth data host
  have hcaused : ∀ maxDepth, FailsIn (Error.CausedIn s maxDepth rule.root)
      (s.evaluate rule maxDepth data host).result := by
    intro maxDepth
    cases maxDepth with
    | none => exact hfree none
    | some limit =>
        rcases hs.onlyBuiltin.evaluate_cut rule data host limit with
          ⟨_, hsame⟩ | ⟨hbeyond, hresult, _⟩
        · rw [hsame]
          exact hfree (some limit)
        · rw [hresult]
          exact FailsIn.error (.tooDeep rfl hbeyond.lt_depth)
  refine ⟨fun maxDepth e he => ?_, fun hsafe => ?_⟩
  · have hcause := hcaused maxDepth e he
    exact ⟨hcause, hcause.ne_malformedRule⟩
  · cases hresult : (s.evaluate rule none data host).result with
    | ok w => exact ⟨w, rfl⟩
    | error e => exact (hsafe.not_causedIn e (hfree none e hresult)).elim

set_option maxRecDepth 2000 in
theorem evaluate_causes_empty_and :
    ∃ (s : Registry Unit) (rule : CompiledRule), s.IsStandard ∧
      s.compiled (.object [("and", .array [])]) = .ok rule ∧
      (s.evaluate rule (some 3) .null ()).result = .error (.noOperands "and") ∧
      (Error.noOperands "and").CausedIn s (some 3) rule.root := by
  have hstandard := isStandard_registry (σ := Unit) .initial
  refine ⟨(Builtin.registry.run .initial).1, _, hstandard, rfl, rfl, ?_⟩
  have hcauses := evaluate_causes (v := .object [("and", .array [])]) hstandard hstandard rfl .null ()
  exact (hcauses.1 (some 3) _ rfl).1

end Registry

end JsonRules
