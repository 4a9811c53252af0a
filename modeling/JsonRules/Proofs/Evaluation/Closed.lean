import JsonRules.Proofs.Evaluation.Answer
import JsonRules.Proofs.Evaluation.Standard
import JsonRules.Proofs.Operator.Kind

/-!
# Closed trees

The data reaches a tree only through the operators that look into it.  A scoped operator hands it to
none but its outer operands, so a tree in which no such operator stands outside the bodies of scoped
ones evaluates in the same way on all data.
-/

namespace JsonRules

variable {σ : Type}

namespace Builtin

/-- The operand at the position is evaluated against the data that the operator is given. -/
def Outer (name : String) (i : Nat) : Prop :=
  if name ∈ elementwiseNames then i = 0 else if name = "reduce" then i = 0 ∨ i = 2 else True

theorem outer_of_notMem_scopedNames {name : String} (hname : name ∉ scopedNames) (i : Nat) :
    Outer name i := by
  rw [scopedNames, List.mem_cons, not_or] at hname
  rw [Outer, if_neg hname.2, if_neg hname.1]
  trivial

theorem outer_of_mem_elementwiseNames {name : String} (hname : name ∈ elementwiseNames) :
    Outer name 0 := by
  rw [Outer, if_pos hname]

theorem outer_reduce {i : Nat} : Outer "reduce" i ↔ i = 0 ∨ i = 2 := by
  simp [Outer, elementwiseNames]

end Builtin

namespace Expr

/-- The tree does not look into the data outside the bodies of scoped operators.  The operators of its
calls are those that the context finds; what a call without operator has for arguments does not
matter. -/
inductive Closed (c : Context σ) : Expr → Prop
  | literal (v : Value) : Closed c (literal v)
  | array {items : List Expr} (hitems : ∀ e ∈ items, e.Closed c) : Closed c (array items)
  | call {site : CallSite} {args : List Expr} {d : Definition σ} (hd : d ∈ Builtin.definitions)
      (hfound : c.operator? site = some d.operator) (hname : d.name ∉ Builtin.accessNames)
      (hargs : ∀ i e, Builtin.Outer d.name i → args[i]? = some e → e.Closed c) :
      Closed c (call site args)
  | unknown {site : CallSite} {args : List Expr} (hmissing : c.operator? site = none) :
      Closed c (call site args)

end Expr

open JsonRules.Environment

/-- The data reaches the operator only through the operands in `outer`. -/
def Operator.SeesOnly (outer : Nat → Prop) (operator : Operator σ) : Prop :=
  ∀ (env : Environment σ) (args : List Expr) (operands : List (Value → Action σ Value))
    (d₁ d₂ : Value), (∀ i, outer i → operand operands i d₁ = operand operands i d₂) →
      env.run args operands d₁ operator = env.run args operands d₂ operator

section Operands

variable {env : Environment σ} {args : List Expr} {operands : List (Value → Action σ Value)}
  {d₁ d₂ : Value} (h : ∀ i, operand operands i d₁ = operand operands i d₂)

include h

theorem Environment.values_eq_of_operand_eq : values operands d₁ = values operands d₂ := by
  induction operands with
  | nil => rfl
  | cons x operands ih =>
      have hhead : x d₁ = x d₂ := h 0
      rw [values_cons, values_cons, hhead, ih fun i => h (i + 1)]

namespace Builtin

theorem answer_firstDeciding_eq (decides : Value → Bool) (last : Value) (positions : List Nat) :
    env.answer args operands (firstDeciding decides d₁ last positions) =
      env.answer args operands (firstDeciding decides d₂ last positions) := by
  induction positions generalizing last with
  | nil => rfl
  | cons i rest ih =>
      simp only [firstDeciding, answer_bind, answer_evaluate, h i]
      refine bind_congr fun v => ?_
      split
      · rfl
      · exact ih v

theorem answer_shortCircuit_eq (name : String) (decides : Value → Bool) (n : Nat) :
    env.answer args operands (shortCircuit name decides n d₁) =
      env.answer args operands (shortCircuit name decides n d₂) := by
  rw [shortCircuit, shortCircuit]
  split
  · rfl
  · exact answer_firstDeciding_eq h decides .null _

theorem answer_branches_eq (positions : List Nat) :
    env.answer args operands (branches d₁ positions) =
      env.answer args operands (branches d₂ positions) := by
  fun_induction branches d₁ positions with
  | case1 condition branch rest ih =>
      simp only [branches, answer_bind, answer_evaluate, h condition]
      refine bind_congr fun v => ?_
      split
      · simp only [answer_evaluate, h branch]
      · exact ih
  | case2 default => simp only [branches, answer_evaluate, h default]
  | case3 => rfl

end Builtin

end Operands

namespace Builtin

theorem answer_source_bind_eq {env : Environment σ} {args : List Expr}
    {operands : List (Value → Action σ Value)} {d₁ d₂ : Value}
    {rest others : List Value → LazyScript σ Value}
    (h : operand operands 0 d₁ = operand operands 0 d₂)
    (hrest : ∀ elements,
      env.answer args operands (rest elements) = env.answer args operands (others elements)) :
    env.answer args operands (source d₁ >>= rest) =
      env.answer args operands (source d₂ >>= others) := by
  simp only [source, answer_bind, answer_evaluate, h]
  exact bind_congr hrest

/-- Apart from those that look into it, a built-in operator uses the data for nothing but to evaluate
its outer operands. -/
theorem seesOnly_of_mem_definitions {d : Definition σ} (hd : d ∈ definitions)
    (hname : d.name ∉ accessNames) : d.operator.SeesOnly (Outer d.name) := by
  intro env args operands d₁ d₂ h
  cases kind_of_mem_definitions hd with
  | access f hmem => exact (hname hmem).elim
  | function f hunscoped =>
      have hvalues := values_eq_of_operand_eq fun i => h i (outer_of_notMem_scopedNames hunscoped i)
      simp only [checked, reading, Operator.ofFunction, run_eager, hvalues]
  | log =>
      have hunscoped : "log" ∉ scopedNames := by decide
      have hvalues := values_eq_of_operand_eq fun i => h i (outer_of_notMem_scopedNames hunscoped i)
      rw [log, run_eager, run_eager, hvalues]
  | @shortCircuit name decides hmem =>
      have hunscoped : name ∉ scopedNames := by
        simp only [List.mem_cons, List.not_mem_nil, or_false] at hmem
        rcases hmem with rfl | rfl
        all_goals decide
      exact answer_shortCircuit_eq (fun i => h i (outer_of_notMem_scopedNames hunscoped i)) _ _ _
  | conditional =>
      have hunscoped : "if" ∉ scopedNames := by decide
      exact answer_branches_eq (fun i => h i (outer_of_notMem_scopedNames hunscoped i)) _
  | elementwise rest hmem =>
      exact answer_source_bind_eq (h 0 (outer_of_mem_elementwiseNames hmem)) fun _ => rfl
  | reduce =>
      have hinitial := h 2 (outer_reduce.mpr (.inr rfl))
      refine answer_source_bind_eq (h 0 (outer_reduce.mpr (.inl rfl))) fun elements => ?_
      simp only [answer_bind, answer_evaluate, hinitial]

end Builtin

/-- The meaning of a closed tree does not depend on the data. -/
theorem Expr.Closed.meaning_eq {c : Context σ} {e : Expr} (h : e.Closed c) :
    ∀ (depth : Nat) (d₁ d₂ : Value),
      e.meaning c.environment depth d₁ = e.meaning c.environment depth d₂ := by
  have hoperand : ∀ {es : List Expr} {i depth : Nat} {d₁ d₂ : Value},
      (∀ e, es[i]? = some e →
        e.meaning c.environment depth d₁ = e.meaning c.environment depth d₂) →
      operand (meanings c.environment es depth) i d₁ =
        operand (meanings c.environment es depth) i d₂ := by
    intro es i depth d₁ d₂ he
    rw [operand_meanings, operand_meanings]
    cases hi : es[i]? with
    | none => rfl
    | some e => exact he e hi
  induction h with
  | literal v => exact fun _ _ _ => rfl
  | array _ ih =>
      intro depth d₁ d₂
      have hvalues := values_eq_of_operand_eq fun i =>
        hoperand fun e he => ih e (List.mem_of_getElem? he) (depth + 1) d₁ d₂
      rw [meaning_array, meaning_array, hvalues]
  | @call site args d hd hfound hname _ ih =>
      intro depth d₁ d₂
      have hrun := Builtin.seesOnly_of_mem_definitions hd hname c.environment args
        (meanings c.environment args (depth + 1)) d₁ d₂
        fun i hi => hoperand fun e he => ih i e hi he (depth + 1) d₁ d₂
      have hoperator : c.environment.operator site = .ok d.operator :=
        CallSite.found_eq_ok.mpr hfound
      rw [meaning_call, meaning_call, apply, apply, hoperator]
      dsimp only
      rw [hrun]
  | @unknown site args hmissing =>
      intro depth d₁ d₂
      have hoperator : c.environment.operator site = .error site.unknown :=
        CallSite.found_eq_error.mpr ⟨hmissing, rfl⟩
      rw [meaning_call, meaning_call, apply, apply, hoperator]

namespace Context

/-- Whatever the data, a closed tree evaluates to the same outcome with the same events: the outer data
is seen by nothing but the operators that look into it, outside the bodies of scoped operators. -/
theorem evaluate_closed {c : Context σ} {e : Expr} (h : e.Closed c) (d₁ d₂ : Value) (host : σ) :
    (e.evaluate d₁).run ⟨c, host⟩ = (e.evaluate d₂).run ⟨c, host⟩ := by
  rw [e.actsAs_evaluate c d₁ host, e.actsAs_evaluate c d₂ host, h.meaning_eq c.depth d₁ d₂]

/-- The bodies of both scoped operators look into their elements, and the initial value is a call. -/
def flattening : Value :=
  .object [("reduce", .array [.array [.null],
    .object [("map", .array [.object [("var", .string "current")], .object [("missing", .string "a")]])],
    .object [("!", .array [])]])]

theorem closed_flattening {r : Registry σ} (hr : r.IsStandard) {rule : CompiledRule}
    (h : r.compiled flattening = .ok rule) : rule.root.Closed (new r rule (some 3)) := by
  have hfound : ∀ site ∈ rule.root.sites, ∀ d ∈ Builtin.definitions,
      site.name ∈ d.aliases ++ [d.name] →
      (new r rule (some 3)).operator? site = some d.operator := fun site hsite d hd hname =>
    (hr.operator?_eq_some_iff hr h hsite (some 3)).mpr ⟨d, hd, hname, rfl⟩
  cases h
  have hreduce : Builtin.lazily "reduce" [] Builtin.scopedReduce ∈ Builtin.definitions (σ := σ) :=
    List.mem_of_getElem? (i := 29) rfl
  have hnegation : Builtin.test "!" Builtin.negation ∈ Builtin.definitions (σ := σ) :=
    List.mem_of_getElem? (i := 5) rfl
  have hnames : "reduce" ∉ Builtin.accessNames ∧ "!" ∉ Builtin.accessNames := by decide
  refine .call hreduce (hfound _ List.mem_cons_self _ hreduce (List.mem_singleton_self _)) hnames.1
    fun i e hi he => ?_
  rcases Builtin.outer_reduce.mp hi with rfl | rfl
  · cases he
    exact .literal _
  · cases he
    refine .call hnegation (hfound _ (List.mem_of_getElem? (i := 4) rfl) _ hnegation
      (List.mem_singleton_self _)) hnames.2 fun i e _ he => ?_
    cases he

theorem evaluate_closed_flattening : ∃ (r : Registry Unit) (rule : CompiledRule),
    r.IsStandard ∧ r.compiled flattening = .ok rule ∧ rule.root.Closed (new r rule (some 3)) ∧
      ∀ d₁ d₂, (rule.root.evaluate d₁).run ⟨new r rule (some 3), ()⟩ =
        (rule.root.evaluate d₂).run ⟨new r rule (some 3), ()⟩ := by
  have hr := Registry.isStandard_registry (σ := Unit) .initial
  have hclosed := closed_flattening hr rfl
  exact ⟨_, _, hr, rfl, hclosed, fun d₁ d₂ => evaluate_closed hclosed d₁ d₂ ()⟩

end Context

end JsonRules
