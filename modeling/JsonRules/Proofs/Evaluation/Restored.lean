import JsonRules.Engine
import JsonRules.Proofs.Evaluation.Environment

/-!
# The context after an evaluation

An evaluation leaves its context as it found it, however it ends, and what it does to the host is the
meaning of the tree in the environment of that context.  Every part of the evaluation is treated
alike: in a given context it acts as a run of the host.
-/

namespace JsonRules

variable {σ α β : Type}

def Ran.within (c : Context σ) (ran : Ran σ α) : Ran (Evaluation σ) α :=
  ⟨ran.result, ran.events, ⟨c, ran.state⟩⟩

namespace Context

/-- What a tree can learn from a context. -/
def environment (c : Context σ) : Environment σ where
  operator site := site.found (c.operator? site)
  isRegistered := c.registry.contains
  maxDepth := c.maxDepth

@[simp] theorem leave_deeper (c : Context σ) : c.deeper.leave = c := rfl

end Context

namespace Expr

theorem operandsBy_eq_map {m : Type → Type} [Monad m] [Performer σ m] (es : List Expr) (level : Nat) :
    (operandsBy es level : List (Performer.Operand m)) = es.map fun e => e.evaluateBy level := by
  induction es with
  | nil => rfl
  | cons e es ih => exact congrArg (e.evaluateBy level :: ·) ih

/-- When the steps are just run, nobody takes notes of the level. -/
theorem operandsBy_eq_map_evaluate {es : List Expr} (level : Nat)
    (h : ∀ e ∈ es, ∀ level : Nat, (e.evaluateBy level : Eval.Operand σ) = e.evaluate) :
    operandsBy es level = es.map (evaluate : Expr → Eval.Operand σ) := by
  rw [operandsBy_eq_map]
  exact List.map_congr_left fun e he => h e he level

theorem evaluateBy_eq_evaluate (e : Expr) : ∀ level : Nat,
    (e.evaluateBy level : Eval.Operand σ) = e.evaluate := by
  induction e with
  | literal v => exact fun _ => rfl
  | array items ih =>
      intro level
      simp only [evaluate, evaluateBy, operandsBy_eq_map_evaluate _ ih]
      rfl
  | call site args ih =>
      intro level
      simp only [evaluate, evaluateBy, operandsBy_eq_map_evaluate _ ih]
      rfl

theorem evaluate_array (items : List Expr) (data : Value) :
    ((array items).evaluate data : Eval σ Value) =
      Eval.nested (do
        let values ← Eval.all data (items.map evaluate)
        pure (.array values)) := by
  rw [← operandsBy_eq_map_evaluate 1 fun e _ => e.evaluateBy_eq_evaluate]
  rfl

theorem evaluate_call (site : CallSite) (args : List Expr) (data : Value) :
    ((call site args).evaluate data : Eval σ Value) =
      Eval.nested (Eval.apply site args (args.map evaluate) data) := by
  rw [← operandsBy_eq_map_evaluate 1 fun e _ => e.evaluateBy_eq_evaluate]
  rfl

end Expr

/-- In the context a step does what the run of the host does, and it restores the context. -/
def ActsAs (c : Context σ) (step : Run (Evaluation σ) α) (run : Run σ α) : Prop :=
  ∀ host, step ⟨c, host⟩ = (run host).within c

namespace ActsAs

variable {c : Context σ}

theorem pure (a : α) : ActsAs c (pure a) (pure a) := fun _ => rfl

theorem ofHost (run : Run σ α) : ActsAs c (Eval.ofHost run) run := fun _ => rfl

theorem emit (event : Event) :
    ActsAs c (Eval.emit event).run (ExceptT.lift (Run.emit event) : Action σ Unit).run :=
  fun _ => rfl

theorem bind {step : Run (Evaluation σ) α} {next : α → Run (Evaluation σ) β}
    {run : Run σ α} {after : α → Run σ β}
    (h : ActsAs c step run) (hnext : ∀ a, ActsAs c (next a) (after a)) :
    ActsAs c (step >>= next) (run >>= after) := by
  intro host
  rw [Run.bind_apply, h host]
  dsimp only [Ran.within]
  rw [hnext]
  rfl

theorem bindExcept {step : Eval σ α} {next : α → Eval σ β}
    {run : Action σ α} {after : α → Action σ β}
    (h : ActsAs c step.run run.run) (hnext : ∀ a, ActsAs c (next a).run (after a).run) :
    ActsAs c (step >>= next).run (run >>= after).run := by
  rw [ExceptT.run_bind, ExceptT.run_bind]
  refine h.bind fun outcome => ?_
  cases outcome with
  | ok a => exact hnext a
  | error e => exact ActsAs.pure _

end ActsAs

namespace Eval

theorem enter_run (c : Context σ) (host : σ) :
    (enter : Eval σ Unit).run ⟨c, host⟩ =
      match c.deeper.exceeded? with
      | some limit => ⟨.error (.depthLimitExceeded limit), [], ⟨c, host⟩⟩
      | none => ⟨.ok (), [], ⟨c.deeper, host⟩⟩ := by
  have hstep : (enter : Eval σ Unit).run ⟨c, host⟩ =
      (match c.deeper.exceeded? with
        | some limit => do
            ExceptT.lift leave
            throw (.depthLimitExceeded limit)
        | none => pure () : Eval σ Unit).run ⟨c.deeper, host⟩ := rfl
  rw [hstep]
  cases c.deeper.exceeded? with
  | some limit => rfl
  | none => rfl

/-- The way back from a nested step does not depend on how the step ended. -/
theorem nested_run (c : Context σ) (host : σ) (step : Eval σ α) :
    (nested step).run ⟨c, host⟩ =
      match c.deeper.exceeded? with
      | some limit => ⟨.error (.depthLimitExceeded limit), [], ⟨c, host⟩⟩
      | none =>
          let ran := step.run ⟨c.deeper, host⟩
          ⟨ran.result, ran.events, { ran.state with context := ran.state.context.leave }⟩ := by
  rw [nested, ExceptT.run_bind, Run.bind_apply, enter_run]
  cases c.deeper.exceeded? with
  | some limit => rfl
  | none =>
      change (⟨_, [] ++ (_ ++ ([] ++ [])), _⟩ : Ran (Evaluation σ) (Except Error α)) = _
      rw [List.append_nil, List.append_nil, List.nil_append]
      rfl

theorem apply_run (c : Context σ) (host : σ) (site : CallSite) (args : List Expr)
    (operands : List (Operand σ)) (data : Value) :
    (apply site args operands data).run ⟨c, host⟩ =
      match c.operator? site with
      | none => ⟨.error site.unknown, [], ⟨c, host⟩⟩
      | some operator =>
          let ran := (operate args operands data operator).run ⟨c, host⟩
          ⟨ran.result, .applied site.name args.length :: ran.events, ran.state⟩ := by
  have hstep : (apply site args operands data).run ⟨c, host⟩ =
      (match c.operator? site with
        | none => throw (.unknownOperator site.name site.path.text)
        | some operator => do
            emit (.applied site.name args.length)
            operate args operands data operator : Eval σ Value).run ⟨c, host⟩ := by
    rw [apply, ExceptT.run_bind, Run.bind_apply]
    change (⟨_, [] ++ _, _⟩ : Ran (Evaluation σ) (Except Error Value)) = _
    rw [List.nil_append]
    rfl
  rw [hstep]
  cases c.operator? site with
  | none => rfl
  | some operator => rfl

end Eval

namespace ActsAs

variable {c : Context σ}

theorem nested {step : Eval σ α} {run : Action σ α} (h : ActsAs c.deeper step.run run.run) :
    ActsAs c (Eval.nested step).run (c.environment.nested (c.depth + 1) run).run := by
  intro host
  have hlimit : c.environment.maxDepth.filter (· < c.depth + 1) = c.deeper.exceeded? := rfl
  rw [Eval.nested_run, Environment.nested, hlimit]
  cases c.deeper.exceeded? with
  | some limit => rfl
  | none =>
      dsimp only
      rw [h host]
      rfl

section Operands

variable {es : List Expr}
  (h : ∀ e ∈ es, ∀ data, ActsAs c (e.evaluate data).run
    (e.meaning c.environment c.depth data).run)

include h

theorem all (data : Value) :
    ActsAs c (Eval.all data (es.map Expr.evaluate)).run
      (Environment.values (Expr.meanings c.environment es c.depth) data).run := by
  induction es with
  | nil => exact ActsAs.pure _
  | cons e es ih =>
      rw [Environment.values_meanings_cons]
      refine (h e List.mem_cons_self data).bindExcept fun v => ?_
      refine (ih fun d hd => h d (List.mem_cons_of_mem e hd)).bindExcept fun vs => ?_
      exact ActsAs.pure _

theorem operand (i : Nat) (data : Value) :
    ActsAs c (Eval.at? (es.map Expr.evaluate) i data)
      (Environment.operand (Expr.meanings c.environment es c.depth) i data).run := by
  rw [Environment.operand_meanings, Eval.at?, List.getElem?_map]
  cases hi : es[i]? with
  | none => exact ActsAs.pure _
  | some e => exact h e (List.mem_of_getElem? hi) data

theorem script (args : List Expr) (s : Script σ α) :
    ActsAs c (Eval.script args (es.map Expr.evaluate) s)
      (c.environment.script args (Expr.meanings c.environment es c.depth) s) := by
  -- The script goes on with the same answers, so it goes on in the same way.
  induction s with
  | done a => exact ActsAs.pure a
  | evaluate i data next ih => exact (operand h i data).bind ih
  | quote i next ih => exact ih _
  | isRegistered name next ih => exact ih (c.registry.contains name)
  | perform action next ih =>
      refine (ofHost action).bind fun _ => ?_
      intro host
      exact ih host host

theorem operate (args : List Expr) (data : Value) (operator : Operator σ) :
    ActsAs c (Eval.operate args (es.map Expr.evaluate) data operator).run
      (c.environment.run args (Expr.meanings c.environment es c.depth) data operator).run := by
  cases operator with
  | eager f => exact (all h data).bindExcept fun values => ofHost (f values data)
  | lazy f => exact script h args (f args.length data).run

theorem apply (site : CallSite) (args : List Expr) (data : Value) :
    ActsAs c (Eval.apply site args (es.map Expr.evaluate) data).run
      (c.environment.apply site args (Expr.meanings c.environment es c.depth) data).run := by
  have hoperator : c.environment.operator site = site.found (c.operator? site) := rfl
  intro host
  rw [Environment.apply, hoperator, Eval.apply_run]
  cases c.operator? site with
  | none => rfl
  | some operator =>
      dsimp only
      rw [operate h args data operator host]
      rfl

end Operands

end ActsAs

/-- An evaluation restores its context, and apart from that it is the meaning of the tree in the
environment of the context. -/
theorem Expr.actsAs_evaluate (e : Expr) : ∀ (c : Context σ) (data : Value),
    ActsAs c (e.evaluate data).run (e.meaning c.environment c.depth data).run := by
  induction e with
  | literal v => exact fun c data => ActsAs.pure _
  | array items ih =>
      intro c data
      rw [Expr.meaning_array, Expr.evaluate_array, ← bind_pure_comp]
      refine ActsAs.nested ?_
      have hitems := ActsAs.all (fun e he data => ih e he c.deeper data) data
      exact hitems.bindExcept fun values => ActsAs.pure _
  | call site args ih =>
      intro c data
      rw [Expr.meaning_call, Expr.evaluate_call]
      exact ActsAs.nested (ActsAs.apply (fun e he data => ih e he c.deeper data) site args data)

namespace Registry

theorem evaluate_eq_meaning (r : Registry σ) (rule : CompiledRule) (maxDepth : Option Nat)
    (data : Value) :
    r.evaluate rule maxDepth data =
      (rule.root.meaning (Context.new r rule maxDepth).environment 0 data).run := by
  funext host
  rw [Registry.evaluate, rule.root.actsAs_evaluate _ data host]
  rfl

end Registry

end JsonRules
