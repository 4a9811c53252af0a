import JsonRules.Proofs.Evaluation.Call

/-!
# Short-circuit operators as actions

`and` and `or` run their operands in order up to the first one with a value that decides.  `if` runs
conditions up to the first true one and then the branch behind it.
-/

namespace JsonRules

variable {σ : Type}

namespace Action

def firstDeciding (decides : Value → Bool) (last : Value) : List (Action σ Value) → Action σ Value
  | [] => pure last
  | x :: rest => do
      let v ← x
      if decides v then pure v else firstDeciding decides v rest

def branches : List (Action σ Value) → Action σ Value
  | condition :: branch :: rest => do
      let v ← condition
      if v.truthy then branch else branches rest
  | [default] => default
  | [] => pure .null

end Action

open JsonRules.Action JsonRules.Environment

namespace Builtin

/-- The values that decide a call of the operator. -/
inductive Deciding : (name : String) → (Value → Bool) → Prop
  | and : Deciding "and" fun v => !v.truthy
  | or : Deciding "or" Value.truthy

variable {env : Environment σ} {args : List Expr} {operands : List (Value → Action σ Value)}

theorem answer_firstDeciding (decides : Value → Bool) (data last : Value) (positions : List Nat) :
    env.answer args operands (firstDeciding decides data last positions) =
      Action.firstDeciding decides last (positions.map fun i => operand operands i data) := by
  induction positions generalizing last with
  | nil => rfl
  | cons i rest ih =>
      simp only [firstDeciding, answer_bind, answer_evaluate, List.map_cons, Action.firstDeciding]
      refine bind_congr fun v => ?_
      split
      · rfl
      · exact ih v

theorem answer_branches (data : Value) (positions : List Nat) :
    env.answer args operands (branches data positions) =
      Action.branches (positions.map fun i => operand operands i data) := by
  fun_induction branches data positions with
  | case1 condition branch rest ih =>
      simp only [answer_bind, answer_evaluate, List.map_cons, Action.branches]
      refine bind_congr fun v => ?_
      split
      · exact answer_evaluate branch data
      · exact ih
  | case2 default => exact answer_evaluate default data
  | case3 => rfl

theorem map_operand_meanings (es : List Expr) (depth : Nat) (data : Value) :
    ((List.range es.length).map fun i => operand (Expr.meanings env es depth) i data) =
      es.map fun e => e.meaning env depth data := by
  refine List.ext_getElem (by simp) fun i _ hi => ?_
  rw [List.length_map] at hi
  simp [operand_meanings, hi]

theorem run_shortCircuit (name : String) (decides : Value → Bool) (es : List Expr) (depth : Nat)
    (data : Value) :
    env.run es (Expr.meanings env es depth) data (.lazy (shortCircuit name decides)) =
      if es.length = 0 then throw (.noOperands name)
      else Action.firstDeciding decides .null (es.map fun e => e.meaning env depth data) := by
  rw [run_lazy, shortCircuit]
  split
  · rfl
  · rw [answer_firstDeciding, map_operand_meanings]

theorem run_conditional (es : List Expr) (depth : Nat) (data : Value) :
    env.run es (Expr.meanings env es depth) data (.lazy conditional) =
      Action.branches (es.map fun e => e.meaning env depth data) := by
  rw [run_lazy, conditional, answer_branches, map_operand_meanings]

end Builtin

namespace Context.Finds

variable {c : Context σ} {site : CallSite}

theorem shortCircuit_eq {name : String} {decides : Value → Bool} (h : c.Finds site name)
    (hname : Builtin.Deciding name decides) :
    c.operator? site = some (.lazy (Builtin.shortCircuit name decides)) := by
  cases hname with
  | and =>
      exact h.operator?_eq (d := Builtin.lazily "and" [] Builtin.conjunction)
        (List.mem_of_getElem? (i := 3) rfl)
  | or =>
      exact h.operator?_eq (d := Builtin.lazily "or" [] Builtin.disjunction)
        (List.mem_of_getElem? (i := 4) rfl)

theorem conditional_eq (h : c.Finds site "if") :
    c.operator? site = some (.lazy Builtin.conditional) :=
  h.operator?_eq (d := Builtin.lazily "if" ["?:"] Builtin.conditional)
    (List.mem_of_getElem? (i := 7) rfl)

end Context.Finds

end JsonRules
