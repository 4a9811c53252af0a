import JsonRules.Proofs.Evaluation.Restored

/-!
# Watched evaluations

To watch an evaluation is to perform it with a log: the context after each of its steps, and the nodes
of the tree as the evaluation comes to them, each with its level, the number of arrays and calls on the
way from the root to it.  A step cannot be performed without being logged.
-/

namespace JsonRules

variable {σ α β : Type}

inductive Moment (σ : Type) where
  /-- A step has left the context like this. -/
  | passed (context : Context σ)
  /-- The evaluation has come to a node in this context, for an array or call inside it. -/
  | visited (level : Nat) (node : Expr) (context : Context σ)

/-- A run of an evaluation together with the moments it goes through. -/
structure Watched (σ α : Type) where
  run : Run (Evaluation σ) α
  log : Evaluation σ → List (Moment σ)

namespace Watched

instance : Monad (Watched σ) where
  pure a := ⟨pure a, fun _ => []⟩
  bind x next :=
    ⟨x.run >>= fun a => (next a).run,
      fun s => x.log s ++ (next (x.run s).result).log (x.run s).state⟩

theorem log_bind (x : Watched σ α) (next : α → Watched σ β) (s : Evaluation σ) :
    (x >>= next).log s = x.log s ++ (next (x.run s).result).log (x.run s).state := rfl

def step (run : Run (Evaluation σ) α) : Watched σ α :=
  ⟨run, fun s => [.passed (run s).state.context]⟩

def visit (level : Nat) (node : Expr) : Watched σ Unit :=
  ⟨pure (), fun s => [.visited level node s.context]⟩

instance : Performer σ (Watched σ) where
  step := step
  visit := visit

end Watched

abbrev Watch (σ α : Type) : Type := ExceptT Error (Watched σ) α

abbrev Watch.Operand (σ : Type) : Type := Performer.Operand (Watched σ)

/-- The watched evaluation of a tree that stands inside so many arrays and calls. -/
def Expr.watched (e : Expr) (level : Nat) : Watch.Operand σ := e.evaluateBy level

def Expr.watchedAll (es : List Expr) (level : Nat) : List (Watch.Operand σ) := operandsBy es level

theorem Expr.watchedAll_eq_map (es : List Expr) (level : Nat) :
    (watchedAll es level : List (Watch.Operand σ)) = es.map fun e => e.watched level :=
  operandsBy_eq_map es level

/-! ### What is watched -/

namespace Watch

def unwatched (x : Watch σ α) : Eval σ α := ExceptT.mk x.run.run

theorem unwatched_bind (x : Watch σ α) (next : α → Watch σ β) :
    unwatched (x >>= next) = unwatched x >>= fun a => unwatched (next a) := by
  refine bind_congr (x := x.run.run) fun outcome => ?_
  cases outcome with
  | ok a => rfl
  | error e => rfl

theorem unwatched_step (x : Eval σ α) : unwatched (Eval.step x) = x := rfl

theorem unwatched_enter : unwatched (Eval.enter : Watch σ Unit) = Eval.enter := by
  rw [Eval.enter, Eval.enter, unwatched_bind, unwatched_step]
  refine bind_congr fun c => ?_
  rw [unwatched_bind, unwatched_step]
  refine bind_congr fun _ => ?_
  cases c.deeper.exceeded? with
  | none => rfl
  | some limit =>
      dsimp only
      rw [unwatched_bind, unwatched_step]
      rfl

theorem unwatched_nested (x : Watch σ α) :
    unwatched (Eval.nested x) = Eval.nested (unwatched x) := by
  rw [Eval.nested, Eval.nested, unwatched_bind, unwatched_enter]
  rfl

theorem unwatched_visit (level : Nat) (node : Expr) (x : Watch σ α) :
    unwatched (Eval.visit level node >>= fun _ => x) = unwatched x := rfl

def unwatchedAll (operands : List (Operand σ)) : List (Eval.Operand σ) :=
  operands.map fun operand data => unwatched (operand data)

theorem unwatched_all (data : Value) (operands : List (Operand σ)) :
    unwatched (Eval.all data operands) = Eval.all data (unwatchedAll operands) := by
  induction operands with
  | nil => rfl
  | cons operand operands ih =>
      rw [Eval.all, unwatched_bind, unwatchedAll, List.map_cons, Eval.all]
      refine bind_congr fun v => ?_
      rw [unwatched_bind, ih]
      rfl

theorem run_at? (operands : List (Operand σ)) (i : Nat) (data : Value) :
    (Eval.at? operands i data).run = Eval.at? (unwatchedAll operands) i data := by
  rw [Eval.at?, Eval.at?, unwatchedAll, List.getElem?_map]
  cases operands[i]? with
  | none => rfl
  | some operand => rfl

theorem run_script (args : List Expr) (operands : List (Operand σ)) (s : Script σ α) :
    (Eval.script args operands s).run = Eval.script args (unwatchedAll operands) s := by
  induction s with
  | done a => rfl
  | evaluate i data next ih =>
      rw [Eval.script, Eval.script, ← run_at?]
      exact bind_congr ih
  | quote i next ih => exact ih _
  | isRegistered name next ih =>
      rw [Eval.script, Eval.script]
      exact bind_congr fun s => ih _
  | perform action next ih =>
      rw [Eval.script, Eval.script]
      exact bind_congr fun _ => bind_congr fun s => ih _

theorem unwatched_operate (args : List Expr) (operands : List (Operand σ)) (data : Value)
    (operator : Operator σ) :
    unwatched (Eval.operate args operands data operator) =
      Eval.operate args (unwatchedAll operands) data operator := by
  cases operator with
  | eager run =>
      rw [Eval.operate, unwatched_bind, unwatched_all]
      rfl
  | lazy run => exact congrArg ExceptT.mk (run_script args operands _)

theorem unwatched_apply (site : CallSite) (args : List Expr) (operands : List (Operand σ))
    (data : Value) :
    unwatched (Eval.apply site args operands data) =
      Eval.apply site args (unwatchedAll operands) data := by
  rw [Eval.apply, Eval.apply, unwatched_bind, unwatched_step]
  refine bind_congr fun c => ?_
  cases c.operator? site with
  | none => rfl
  | some operator =>
      dsimp only
      rw [unwatched_bind, unwatched_step]
      exact bind_congr fun _ => unwatched_operate args operands data operator

end Watch

/-- Watching changes nothing: without the log, it is the evaluation. -/
theorem Expr.unwatched_watched (e : Expr) : ∀ (level : Nat) (data : Value),
    Watch.unwatched (e.watched level data) = (e.evaluate data : Eval σ Value) := by
  have hall : ∀ {es : List Expr} {level : Nat},
      (∀ e ∈ es, ∀ (level : Nat) (data : Value),
        Watch.unwatched (e.watched level data) = (e.evaluate data : Eval σ Value)) →
      Watch.unwatchedAll (operandsBy es level) = (es.map evaluate : List (Eval.Operand σ)) := by
    intro es level hes
    rw [← watchedAll, watchedAll_eq_map, Watch.unwatchedAll, List.map_map]
    exact List.map_congr_left fun e he => funext (hes e he level)
  induction e with
  | literal v => exact fun _ _ => rfl
  | array items ih =>
      intro level data
      rw [watched, evaluateBy, evaluate_array, Watch.unwatched_nested, Watch.unwatched_visit,
        Watch.unwatched_bind, Watch.unwatched_all, hall ih]
      rfl
  | call site args ih =>
      intro level data
      rw [watched, evaluateBy, evaluate_call, Watch.unwatched_nested, Watch.unwatched_visit,
        Watch.unwatched_apply, hall ih]

end JsonRules
