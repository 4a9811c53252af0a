import JsonRules.Proofs.Evaluation.Call
import JsonRules.Proofs.Evaluation.Plain

/-!
# Effects

The effect of a run is its result, the texts it logs and the state it leaves.  Which operators it applies
on the way is no part of it.  So without a limit a call has the effect of its operator at work on the
operands, however deep these are nested.
-/

namespace JsonRules

variable {σ α β : Type}

def Event.logged? : Event → Option String
  | .logged text => some text
  | _ => none

/-- The texts that were logged, in order. -/
def Ran.logs (ran : Ran σ α) : List String := ran.events.filterMap Event.logged?

structure Ran.SameEffect (ran other : Ran σ α) : Prop where
  result : ran.result = other.result
  logs : ran.logs = other.logs
  state : ran.state = other.state

namespace Action

def SameEffect (x y : Action σ α) : Prop := ∀ host, (x.run host).SameEffect (y.run host)

namespace SameEffect

variable {x y z : Action σ α}

@[refl] theorem refl (x : Action σ α) : SameEffect x x := fun _ => ⟨rfl, rfl, rfl⟩

theorem of_eq (h : x = y) : SameEffect x y := h ▸ refl x

@[symm] theorem symm (h : SameEffect x y) : SameEffect y x :=
  fun host => ⟨(h host).result.symm, (h host).logs.symm, (h host).state.symm⟩

theorem trans (hxy : SameEffect x y) (hyz : SameEffect y z) : SameEffect x z :=
  fun host =>
    ⟨(hxy host).result.trans (hyz host).result, (hxy host).logs.trans (hyz host).logs,
      (hxy host).state.trans (hyz host).state⟩

instance : Trans (SameEffect (σ := σ) (α := α)) SameEffect SameEffect := ⟨trans⟩

theorem bind {next after : α → Action σ β} (h : SameEffect x y)
    (hnext : ∀ a, SameEffect (next a) (after a)) : SameEffect (x >>= next) (y >>= after) := by
  intro host
  obtain ⟨hresult, hlogs, hstate⟩ := h host
  rw [ExceptT.run_bind, ExceptT.run_bind, Run.bind_apply, Run.bind_apply, hresult, hstate]
  cases (y.run host).result with
  | ok a =>
      obtain ⟨hresult', hlogs', hstate'⟩ := hnext a (y.run host).state
      refine ⟨hresult', ?_, hstate'⟩
      rw [Ran.logs, Ran.logs, List.filterMap_append, List.filterMap_append]
      exact congrArg₂ _ hlogs hlogs'
  | error e =>
      refine ⟨rfl, ?_, rfl⟩
      rw [Ran.logs, Ran.logs, List.filterMap_append, List.filterMap_append]
      exact congrArg (· ++ []) hlogs

theorem bind_left (h : SameEffect x y) (next : α → Action σ β) :
    SameEffect (x >>= next) (y >>= next) :=
  h.bind fun a => .refl (next a)

theorem bind_right (x : Action σ α) {next after : α → Action σ β}
    (h : ∀ a, SameEffect (next a) (after a)) : SameEffect (x >>= next) (x >>= after) :=
  (refl x).bind h

theorem of_applied (name : String) (operands : Nat) (x : Action σ α) :
    SameEffect (ExceptT.lift (Run.emit (.applied name operands)) >>= fun _ => x) x :=
  fun _ => ⟨rfl, rfl, rfl⟩

end SameEffect

end Action

open JsonRules.Action

namespace Expr

variable {env : Environment σ}

theorem meanings_depth (hfree : env.maxDepth = none) (es : List Expr) (depth other : Nat) :
    meanings env es depth = meanings env es other := by
  rw [meanings_eq_map, meanings_eq_map]
  exact List.map_congr_left fun e _ => meaning_depth hfree e depth other

theorem call_sameEffect (hfree : env.maxDepth = none) {site : CallSite} {operator : Operator σ}
    (h : env.operator site = .ok operator) (args : List Expr) (depth : Nat) (data : Value) :
    SameEffect ((call site args).meaning env depth data)
      (env.run args (meanings env args depth) data operator) := by
  rw [meaning_call_of_operator h, Environment.nested_of_maxDepth_eq_none hfree,
    meanings_depth hfree args (depth + 1) depth]
  exact .of_applied _ _ _

end Expr

theorem Context.sameEffect_of_meaning {c : Context σ} {e f : Expr} {data : Value}
    (h : SameEffect (e.meaning c.environment c.depth data)
      (f.meaning c.environment c.depth data)) (host : σ) :
    ((e.evaluate data).run ⟨c, host⟩).SameEffect ((f.evaluate data).run ⟨c, host⟩) := by
  rw [e.actsAs_evaluate c data host, f.actsAs_evaluate c data host]
  obtain ⟨hresult, hlogs, hstate⟩ := h host
  exact ⟨hresult, hlogs, congrArg (Evaluation.mk c) hstate⟩

end JsonRules
