import JsonRules.Proofs.Evaluation.Related
import JsonRules.Proofs.Evaluation.Restored
import JsonRules.Proofs.Rule.Position

/-!
# Calls of plain operators

Plain operators see nothing of their operands but the outcomes of evaluating them, and they leave the
host alone.  So calls with operands of the same results have the same result, and a tree fails only
with what the operators of its calls report, or with what looking for one of them does.  All of this is
for evaluations without a limit, in which the depth of a node does not matter.
-/

namespace JsonRules

variable {σ α β : Type} {P : Error → Prop} {host : σ}

namespace Action

/-- Both runs leave the host as it is and have the same outcome; a failure is in `P`. -/
def Agree (P : Error → Prop) (host : σ) (x y : Action σ α) : Prop :=
  ∃ outcome events others, FailsIn P outcome ∧ x.run host = ⟨outcome, events, host⟩ ∧
    y.run host = ⟨outcome, others, host⟩

namespace Agree

theorem pure (a : α) : Agree P host (Pure.pure a) (Pure.pure a) :=
  ⟨.ok a, [], [], FailsIn.ok a, rfl, rfl⟩

theorem throw {e : Error} (he : P e) : Agree P host (throw e : Action σ α) (throw e) :=
  ⟨.error e, [], [], FailsIn.error he, rfl, rfl⟩

theorem emit (event : Event) :
    Agree P host (ExceptT.lift (Run.emit event)) (ExceptT.lift (Run.emit event)) :=
  ⟨.ok (), [event], [event], FailsIn.ok (), rfl, rfl⟩

theorem bind {x y : Action σ α} {next after : α → Action σ β} (h : Agree P host x y)
    (hnext : ∀ a, Agree P host (next a) (after a)) :
    Agree P host (x >>= next) (y >>= after) := by
  obtain ⟨outcome, events, others, hfails, hx, hy⟩ := h
  cases outcome with
  | ok a =>
      obtain ⟨outcome, events', others', hfails', hx', hy'⟩ := hnext a
      refine ⟨outcome, events ++ events', others ++ others', hfails', ?_, ?_⟩
      · rw [ExceptT.run_bind, Run.bind_apply, hx]
        simp only [hx']
      · rw [ExceptT.run_bind, Run.bind_apply, hy]
        simp only [hy']
  | error e =>
      refine ⟨.error e, events ++ [], others ++ [], FailsIn.error (hfails e rfl), ?_, ?_⟩
      · rw [ExceptT.run_bind, Run.bind_apply, hx]
        rfl
      · rw [ExceptT.run_bind, Run.bind_apply, hy]
        rfl

theorem result_eq {x y : Action σ α} (h : Agree P host x y) :
    (x.run host).result = (y.run host).result := by
  obtain ⟨outcome, events, others, _, hx, hy⟩ := h
  rw [hx, hy]

theorem fails {x y : Action σ α} (h : Agree P host x y) : FailsIn P (x.run host).result := by
  obtain ⟨outcome, events, others, hfails, hx, _⟩ := h
  rw [hx]
  exact hfails

theorem of_result_eq {x y : Action σ α} (hx : Agree P host x x) (hy : Agree P host y y)
    (h : (x.run host).result = (y.run host).result) : Agree P host x y := by
  obtain ⟨outcome, events, _, hfails, hrun, _⟩ := hx
  obtain ⟨outcome', others, _, _, hrun', _⟩ := hy
  rw [hrun, hrun'] at h
  obtain rfl : outcome = outcome' := h
  exact ⟨outcome, events, others, hfails, hrun, hrun'⟩

end Agree

theorem congruence_agree (P : Error → Prop) (host : σ) :
    Congruence (fun {α : Type} (x y : Action σ α) => Agree P host x y) :=
  ⟨Agree.pure, Agree.bind⟩

end Action

open JsonRules.Action

namespace Environment

variable {env : Environment σ}

theorem nested_of_maxDepth_eq_none (h : env.maxDepth = none) (depth : Nat)
    (step : Action σ α) : env.nested depth step = step := by
  rw [nested, h]
  rfl

section Operands

variable {args others : List Expr} {operands replaced : List (Value → Action σ Value)}
  (h : List.Forall₂ (fun x y => ∀ data, Agree P host (x data) (y data)) operands replaced)

include h

theorem script_agree {s : Script σ (Except Error α)} (hs : s.Evaluates P) :
    Agree P host (ExceptT.mk (env.script args operands s))
      (ExceptT.mk (env.script others replaced s)) := by
  induction s with
  | done outcome => exact ⟨outcome, [], [], hs, rfl, rfl⟩
  | evaluate i data next ih =>
      rw [script_evaluate hs.1, script_evaluate hs.1]
      have hoperand := operand_related h (congruence_agree P host) i data
      exact hoperand.bind fun v => ih (.ok v) (hs.2 v)
  | quote i next ih => exact hs.elim
  | isRegistered name next ih => exact hs.elim
  | perform action next ih => exact hs.elim

theorem run_agree (hlength : args.length = others.length) {Q : Nat → Error → Prop}
    {operator : Operator σ} (hoperator : operator.Plain Q)
    (hQP : ∀ e, Q args.length e → P e) (data : Value) :
    Agree P host (env.run args operands data operator)
      (env.run others replaced data operator) := by
  cases operator with
  | eager f =>
      refine (values_related h (congruence_agree P host) data).bind fun values => ?_
      obtain ⟨outcome, events, hfails, hrun⟩ := hoperator values data
      exact ⟨outcome, events, events, hfails.mono fun e he => hQP e (he _), hrun host, hrun host⟩
  | lazy f =>
      rw [run, run, ← hlength]
      exact script_agree h ((hoperator args.length data).mono hQP)

theorem apply_agree (hlength : args.length = others.length) {site : CallSite}
    (hfound : ∀ operator, env.operator site = .ok operator →
      ∃ Q, operator.Plain Q ∧ ∀ e, Q args.length e → P e)
    (hmissing : ∀ e, env.operator site = .error e → P e) (data : Value) :
    Agree P host (env.apply site args operands data) (env.apply site others replaced data) := by
  rw [apply, apply, ← hlength]
  cases hoperator : env.operator site with
  | error e => exact Agree.throw (hmissing e hoperator)
  | ok operator =>
      obtain ⟨Q, hplain, hQP⟩ := hfound operator hoperator
      exact (Agree.emit _).bind fun _ => run_agree h hlength hplain hQP data

end Operands

end Environment

namespace Expr

variable {env : Environment σ}

/-- Without a limit a tree means the same at every depth. -/
theorem meaning_depth (hfree : env.maxDepth = none) (e : Expr) : ∀ (depth other : Nat),
    e.meaning env depth = e.meaning env other := by
  have hall : ∀ {es : List Expr}, (∀ e ∈ es, ∀ depth other,
      e.meaning env depth = e.meaning env other) → ∀ depth other,
      meanings env es depth = meanings env es other := by
    intro es h depth other
    rw [meanings_eq_map, meanings_eq_map]
    exact List.map_congr_left fun e he => h e he depth other
  induction e with
  | literal v => exact fun _ _ => rfl
  | array items ih =>
      intro depth other
      funext data
      simp only [meaning_array, Environment.nested_of_maxDepth_eq_none hfree]
      rw [hall ih (depth + 1) (other + 1)]
  | call site args ih =>
      intro depth other
      funext data
      simp only [meaning_call, Environment.nested_of_maxDepth_eq_none hfree]
      rw [hall ih (depth + 1) (other + 1)]

section Nodes

variable (hfree : env.maxDepth = none) {depth : Nat} {es others : List Expr}
  (h : List.Forall₂ (fun e f => ∀ data,
    Agree P host (e.meaning env (depth + 1) data) (f.meaning env (depth + 1) data)) es others)

include hfree h

theorem array_agree (data : Value) :
    Agree P host ((array es).meaning env depth data) ((array others).meaning env depth data) := by
  have hvalues := Environment.values_related (meanings_related h) (congruence_agree P host) data
  simp only [meaning_array, Environment.nested_of_maxDepth_eq_none hfree, ← bind_pure_comp]
  exact hvalues.bind fun vs => Agree.pure (Value.array vs)

theorem call_agree {site : CallSite}
    (hfound : ∀ operator, env.operator site = .ok operator →
      ∃ Q, operator.Plain Q ∧ ∀ e, Q es.length e → P e)
    (hmissing : ∀ e, env.operator site = .error e → P e) (data : Value) :
    Agree P host ((call site es).meaning env depth data)
      ((call site others).meaning env depth data) := by
  simp only [meaning_call, Environment.nested_of_maxDepth_eq_none hfree]
  exact Environment.apply_agree (meanings_related h) h.length_eq hfound hmissing data

end Nodes

/-- A failure of a tree is one that an operator of its calls reports, or one of looking for it. -/
theorem meaning_agree (hfree : env.maxDepth = none) {e : Expr}
    (hfound : ∀ site args, e.HasNode (call site args) → ∀ operator,
      env.operator site = .ok operator → ∃ Q, operator.Plain Q ∧ ∀ e, Q args.length e → P e)
    (hmissing : ∀ site args, e.HasNode (call site args) → ∀ error,
      env.operator site = .error error → P error) : ∀ (depth : Nat) (data : Value),
    Agree P host (e.meaning env depth data) (e.meaning env depth data) := by
  induction e with
  | literal v => exact fun _ _ => Agree.pure v
  | array items ih =>
      intro depth data
      refine array_agree hfree (List.forall₂_same.mpr fun e he => ih e he ?_ ?_ (depth + 1)) data
      · exact fun site args h => hfound site args (h.of_mem_children (e := array items) he)
      · exact fun site args h => hmissing site args (h.of_mem_children (e := array items) he)
  | call site args ih =>
      intro depth data
      have hself := hasNode_self (call site args)
      refine call_agree hfree (List.forall₂_same.mpr fun e he => ih e he ?_ ?_ (depth + 1))
        (hfound site args hself) (hmissing site args hself) data
      · exact fun inner args' h => hfound inner args' (h.of_mem_children (e := call site args) he)
      · exact fun inner args' h => hmissing inner args' (h.of_mem_children (e := call site args) he)

end Expr

end JsonRules
