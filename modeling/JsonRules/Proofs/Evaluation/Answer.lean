import JsonRules.Proofs.Evaluation.Environment
import JsonRules.Proofs.Operator.Conduct

/-!
# Scripts as actions

Answered in an environment, a script is an action, and answering goes along with putting one script
after another.  So what a lazy operator does can be read off its definition, with the operands in the
place of the requests for them.
-/

namespace JsonRules.Environment

variable {σ α β : Type} {env : Environment σ} {args : List Expr}
  {operands : List (Value → Action σ Value)}

def answer (env : Environment σ) (args : List Expr) (operands : List (Value → Action σ Value))
    (x : LazyScript σ α) : Action σ α :=
  ExceptT.mk (env.script args operands x.run)

theorem script_bind (s : Script σ α) (f : α → Script σ β) :
    env.script args operands (s.bind f) =
      env.script args operands s >>= fun a => env.script args operands (f a) := by
  induction s with
  | done a => rfl
  | evaluate i data next ih =>
      rw [Script.bind, script, script, bind_assoc]
      exact bind_congr ih
  | quote i next ih => exact ih _
  | isRegistered name next ih => exact ih _
  | perform action next ih =>
      simp only [Script.bind, script, bind_assoc]
      exact bind_congr fun _ => bind_congr ih

@[simp] theorem answer_pure (a : α) : env.answer args operands (pure a) = pure a := rfl

@[simp] theorem answer_evaluate (i : Nat) (data : Value) :
    env.answer args operands (LazyScript.evaluate i data) = operand operands i data :=
  bind_pure (operand operands i data).run

@[simp] theorem answer_bind (x : LazyScript σ α) (f : α → LazyScript σ β) :
    env.answer args operands (x >>= f) =
      env.answer args operands x >>= fun a => env.answer args operands (f a) := by
  refine ExceptT.ext ?_
  rw [answer, LazyScript.run_bind, ExceptT.run_mk, script_bind, ExceptT.run_bind]
  refine bind_congr fun outcome => ?_
  cases outcome with
  | ok a => rfl
  | error e => rfl

theorem run_lazy (f : Nat → Value → LazyScript σ Value) (data : Value) :
    env.run args operands data (.lazy f) = env.answer args operands (f args.length data) := rfl

theorem run_eager (f : List Value → Value → Run σ (Except Error Value)) (data : Value) :
    env.run args operands data (.eager f) =
      values operands data >>= fun vs => ExceptT.mk (f vs data) := rfl

end JsonRules.Environment
