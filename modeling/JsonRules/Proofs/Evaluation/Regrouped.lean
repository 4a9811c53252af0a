import JsonRules.Proofs.Evaluation.Effect
import JsonRules.Proofs.Evaluation.ShortCircuit
import Mathlib.Algebra.Group.Nat.Even

/-!
# Regrouped calls

A call of `and` or `or` among the operands of another one can be replaced by its own operands, and so can
one of `if` in the last place, after conditions that all have a branch.
-/

namespace JsonRules

variable {σ : Type}

namespace Action

variable {decides : Value → Bool} {xs ys : List (Action σ Value)}

theorem firstDeciding_append {last : Value} (hlast : decides last = false)
    (xs zs : List (Action σ Value)) :
    firstDeciding decides last (xs ++ zs) =
      firstDeciding decides last xs >>= fun v =>
        if decides v then pure v else firstDeciding decides v zs := by
  induction xs generalizing last with
  | nil =>
      rw [firstDeciding, pure_bind, hlast]
      rfl
  | cons x rest ih =>
      rw [List.cons_append, firstDeciding, firstDeciding, bind_assoc]
      -- If the run goes on, it does so from a value that does not decide.
      refine bind_congr fun v => ?_
      cases hv : decides v with
      | true => simp only [if_true, pure_bind, hv]
      | false => simpa only [Bool.false_eq_true, if_false] using ih hv

/-- The value of the nested operands decides exactly if one of them does, and else is that of the last
one. -/
theorem firstDeciding_nested (last : Value) (xs : List (Action σ Value)) (hys : ys ≠ [])
    (zs : List (Action σ Value)) :
    firstDeciding decides last (xs ++ firstDeciding decides .null ys :: zs) =
      firstDeciding decides last (xs ++ ys ++ zs) := by
  induction xs generalizing last with
  | nil =>
      obtain ⟨y, rest, rfl⟩ := List.exists_cons_of_ne_nil hys
      rw [List.nil_append, List.nil_append, List.cons_append, firstDeciding, firstDeciding,
        firstDeciding, bind_assoc]
      refine bind_congr fun v => ?_
      cases hv : decides v with
      | true => simp only [if_true, pure_bind, hv]
      | false => simp only [Bool.false_eq_true, if_false, firstDeciding_append hv]
  | cons x rest ih =>
      simp only [List.cons_append, firstDeciding, ih]

theorem branches_nested {xs : List (Action σ Value)} (heven : Even xs.length)
    (rest : List (Action σ Value)) :
    branches (xs ++ [branches rest]) = branches (xs ++ rest) := by
  fun_induction branches xs with
  | case1 condition branch others ih =>
      have hothers : Even others.length := by simpa [Nat.even_add_one] using heven
      simp only [List.cons_append, branches, ih hothers]
  | case2 default => simp at heven
  | case3 => rfl

theorem forall₂_replaced {x y : Action σ Value} (h : SameEffect x y)
    (xs zs : List (Action σ Value)) :
    List.Forall₂ SameEffect (xs ++ x :: zs) (xs ++ y :: zs) := by
  have hsame : ∀ xs : List (Action σ Value), List.Forall₂ SameEffect xs xs := fun xs =>
    List.forall₂_same.mpr fun x _ => .refl x
  exact List.rel_append (hsame xs) (.cons h (hsame zs))

theorem firstDeciding_sameEffect (h : List.Forall₂ SameEffect xs ys) (last : Value) :
    SameEffect (firstDeciding decides last xs) (firstDeciding decides last ys) := by
  induction h generalizing last with
  | nil => exact .refl _
  | cons hxy _ ih =>
      refine hxy.bind fun v => ?_
      split
      · exact .refl _
      · exact ih v

theorem branches_sameEffect (h : List.Forall₂ SameEffect xs ys) :
    SameEffect (branches xs) (branches ys) := by
  fun_induction branches xs generalizing ys with
  | case1 condition branch others ih =>
      obtain _ | ⟨hcondition, _ | ⟨hbranch, hothers⟩⟩ := h
      refine hcondition.bind fun v => ?_
      split
      · exact hbranch
      · exact ih hothers
  | case2 default =>
      obtain _ | ⟨hdefault, _ | _⟩ := h
      exact hdefault
  | case3 =>
      cases h
      exact .refl _

end Action

open JsonRules.Action JsonRules.Environment

namespace Expr

variable {env : Environment σ} (hfree : env.maxDepth = none) (depth : Nat) (data : Value)
  {site : CallSite}

include hfree

theorem shortCircuit_sameEffect {name : String} {decides : Value → Bool}
    (h : env.operator site = .ok (.lazy (Builtin.shortCircuit name decides))) {es : List Expr}
    (hes : es ≠ []) :
    SameEffect ((call site es).meaning env depth data)
      (firstDeciding decides .null (es.map fun e => e.meaning env depth data)) := by
  refine (call_sameEffect hfree h es depth data).trans (.of_eq ?_)
  rw [Builtin.run_shortCircuit, if_neg (List.length_eq_zero_iff.not.mpr hes)]

theorem conditional_sameEffect (h : env.operator site = .ok (.lazy Builtin.conditional))
    (es : List Expr) :
    SameEffect ((call site es).meaning env depth data)
      (branches (es.map fun e => e.meaning env depth data)) :=
  (call_sameEffect hfree h es depth data).trans (.of_eq (Builtin.run_conditional es depth data))

variable {outer inner flat : CallSite}

theorem shortCircuit_regrouped {name : String} {decides : Value → Bool}
    (houter : env.operator outer = .ok (.lazy (Builtin.shortCircuit name decides)))
    (hinner : env.operator inner = .ok (.lazy (Builtin.shortCircuit name decides)))
    (hflat : env.operator flat = .ok (.lazy (Builtin.shortCircuit name decides)))
    (xs : List Expr) {ys : List Expr} (hys : ys ≠ []) (zs : List Expr) :
    SameEffect ((call outer (xs ++ call inner ys :: zs)).meaning env depth data)
      ((call flat (xs ++ ys ++ zs)).meaning env depth data) := by
  let run (es : List Expr) := es.map fun e => e.meaning env depth data
  have hrun : run ys ≠ [] := by simpa [run] using hys
  have hnested := shortCircuit_sameEffect hfree depth data hinner hys
  calc
    SameEffect _ (firstDeciding decides .null (run (xs ++ call inner ys :: zs))) :=
      shortCircuit_sameEffect hfree depth data houter (by simp)
    _ = firstDeciding decides .null (run xs ++ (call inner ys).meaning env depth data :: run zs) := by
      simp only [run, List.map_append, List.map_cons]
    SameEffect _ (firstDeciding decides .null
        (run xs ++ firstDeciding decides .null (run ys) :: run zs)) :=
      firstDeciding_sameEffect (forall₂_replaced hnested _ _) .null
    _ = firstDeciding decides .null (run (xs ++ ys ++ zs)) := by
      rw [firstDeciding_nested _ _ hrun]
      simp only [run, List.map_append]
    SameEffect _ _ := (shortCircuit_sameEffect hfree depth data hflat (by simp [hys])).symm

theorem conditional_regrouped (houter : env.operator outer = .ok (.lazy Builtin.conditional))
    (hinner : env.operator inner = .ok (.lazy Builtin.conditional))
    (hflat : env.operator flat = .ok (.lazy Builtin.conditional)) {ps : List Expr}
    (heven : Even ps.length) (rest : List Expr) :
    SameEffect ((call outer (ps ++ [call inner rest])).meaning env depth data)
      ((call flat (ps ++ rest)).meaning env depth data) := by
  let run (es : List Expr) := es.map fun e => e.meaning env depth data
  have hrun : Even (run ps).length := by simpa [run] using heven
  have hnested := conditional_sameEffect hfree depth data hinner rest
  calc
    SameEffect _ (branches (run (ps ++ [call inner rest]))) :=
      conditional_sameEffect hfree depth data houter _
    _ = branches (run ps ++ [(call inner rest).meaning env depth data]) := by
      simp only [run, List.map_append, List.map_cons, List.map_nil]
    SameEffect _ (branches (run ps ++ [branches (run rest)])) :=
      branches_sameEffect (forall₂_replaced hnested _ _)
    _ = branches (run (ps ++ rest)) := by
      rw [branches_nested hrun]
      simp only [run, List.map_append]
    SameEffect _ _ := (conditional_sameEffect hfree depth data hflat _).symm

end Expr

namespace Context

variable {c : Context σ}

/-- Without a limit, calls of `and` and `or` have the effect of those in which the operands of a nested
call of the same operator stand in its place, and so have calls of `if` with a nested one in the place of
the default. -/
theorem evaluate_regrouped (hfree : c.maxDepth = none) (data : Value) (host : σ) :
    let run site args := ((Expr.call site args).evaluate data).run ⟨c, host⟩
    (∀ name ∈ ["and", "or"], ∀ outer inner flat,
      c.Finds outer name → c.Finds inner name → c.Finds flat name →
      ∀ xs ys zs, ys ≠ [] →
        (run outer (xs ++ .call inner ys :: zs)).SameEffect (run flat (xs ++ ys ++ zs))) ∧
    ∀ outer inner flat, c.Finds outer "if" → c.Finds inner "if" → c.Finds flat "if" →
      ∀ ps rest, Even ps.length →
        (run outer (ps ++ [.call inner rest])).SameEffect (run flat (ps ++ rest)) := by
  intro run
  refine ⟨fun name hname outer inner flat houter hinner hflat xs ys zs hys =>
    sameEffect_of_meaning ?_ host, fun outer inner flat houter hinner hflat ps rest heven =>
    sameEffect_of_meaning ?_ host⟩
  · obtain ⟨decides, hdecides⟩ : ∃ decides, Builtin.Deciding name decides := by
      rcases List.mem_pair.mp hname with rfl | rfl
      · exact ⟨_, .and⟩
      · exact ⟨_, .or⟩
    have hoperator : ∀ {site}, c.Finds site name → c.environment.operator site = _ :=
      fun h => CallSite.found_eq_ok.mpr (h.shortCircuit_eq hdecides)
    exact Expr.shortCircuit_regrouped hfree _ _ (hoperator houter) (hoperator hinner) (hoperator hflat)
      xs hys zs
  · have hoperator : ∀ {site}, c.Finds site "if" → c.environment.operator site = _ :=
      fun h => CallSite.found_eq_ok.mpr h.conditional_eq
    exact Expr.conditional_regrouped hfree _ _ (hoperator houter) (hoperator hinner) (hoperator hflat)
      heven rest

theorem evaluate_regrouped_standard : ∃ c : Context Unit, c.maxDepth = none ∧
    ∀ (x y z : Expr) (data : Value),
      let run name args := ((Expr.call (.named name) args).evaluate data).run ⟨c, ()⟩
      (run "or" [x, .call (.named "or") [y], z]).SameEffect (run "or" [x, y, z]) ∧
      (run "if" [x, y, .call (.named "if") [z]]).SameEffect (run "if" [x, y, z]) := by
  refine ⟨standard none, rfl, fun x y z data => ?_⟩
  have hor := finds_standard "or" (by decide) none
  have hif := finds_standard "if" (by decide) none
  have hregrouped := evaluate_regrouped (c := standard none) rfl data ()
  exact ⟨hregrouped.1 "or" (by decide) _ _ _ hor hor hor [x] [y] [z] (by simp),
    hregrouped.2 _ _ _ hif hif hif [x, y] [z] ⟨1, rfl⟩⟩

end Context

end JsonRules
