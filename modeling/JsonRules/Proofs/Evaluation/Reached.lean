import JsonRules.Proofs.Evaluation.Outcomes
import JsonRules.Proofs.Evaluation.ShortCircuit

/-!
# Operands that are not reached

A short-circuit operator reaches an operand only if those before it, of `if` the conditions before it,
have values that do not decide.  What is not reached has no part in the evaluation: it can be replaced
by anything.
-/

namespace JsonRules

variable {σ α β : Type}

/-- The outcomes before the position are values, none of which decides. -/
def Reached (decides : Value → Bool) (outcomes : List (Except Error Value)) (position : Nat) : Prop :=
  ∀ i < position, ∃ v, outcomes[i]? = some (.ok v) ∧ decides v = false

theorem Reached.zero (decides : Value → Bool) (outcomes : List (Except Error Value)) :
    Reached decides outcomes 0 := fun _ hi => absurd hi (Nat.not_lt_zero _)

theorem Reached.succ {decides : Value → Bool} {outcomes : List (Except Error Value)} {v : Value}
    {position : Nat} (hv : decides v = false) (h : Reached decides outcomes position) :
    Reached decides (.ok v :: outcomes) (position + 1) := by
  intro i hi
  cases i with
  | zero => exact ⟨v, rfl, hv⟩
  | succ i => exact h i (Nat.lt_of_succ_lt_succ hi)

/-- The conditions among the operands of `if`, with the default as the last one. -/
def conditions : List α → List α
  | condition :: _ :: rest => condition :: conditions rest
  | [default] => [default]
  | [] => []

theorem conditions_map (f : α → β) (xs : List α) : conditions (xs.map f) = (conditions xs).map f := by
  fun_induction conditions xs with
  | case1 condition branch rest ih => exact congrArg (f condition :: ·) ih
  | case2 default => rfl
  | case3 => rfl

namespace Action

variable {xs ys : List (Action σ Value)} {host : σ}

theorem firstDeciding_unreached {decides : Value → Bool} (hlength : ys.length = xs.length)
    (h : ∀ i, Reached decides (outcomes xs host) i → ys[i]? = xs[i]?) (last : Value) :
    (firstDeciding decides last ys).run host = (firstDeciding decides last xs).run host := by
  -- The rest runs from where the first operand leaves the host.
  induction xs generalizing ys host last with
  | nil => rw [List.eq_nil_of_length_eq_zero hlength]
  | cons x rest ih =>
      obtain ⟨y, others, rfl⟩ := List.exists_cons_of_length_eq_add_one hlength
      obtain rfl : y = x := Option.some.inj (h 0 (.zero _ _))
      rw [firstDeciding, firstDeciding]
      cases hresult : (y.run host).result with
      | error e => rw [run_bind_of_error hresult, run_bind_of_error hresult]
      | ok v =>
          rw [run_bind_of_ok hresult, run_bind_of_ok hresult]
          rw [outcomes, hresult] at h
          cases hv : decides v with
          | true => rfl
          | false =>
              have hrest := ih (Nat.succ.inj hlength) (fun i hi => h (i + 1) (hi.succ hv)) v
              simp only [Bool.false_eq_true, if_false, hrest]

theorem branches_unreached (hlength : ys.length = xs.length)
    (h : ∀ i, Reached Value.truthy (outcomes (conditions xs) host) i → ys[2 * i]? = xs[2 * i]? ∧
      ∀ v, (outcomes (conditions xs) host)[i]? = some (.ok v) → v.truthy →
        ys[2 * i + 1]? = xs[2 * i + 1]?) :
    (branches ys).run host = (branches xs).run host := by
  fun_induction conditions xs generalizing ys host with
  | case1 condition branch rest ih =>
      obtain ⟨y, tail, rfl⟩ := List.exists_cons_of_length_eq_add_one hlength
      obtain ⟨z, others, rfl⟩ := List.exists_cons_of_length_eq_add_one (Nat.succ.inj hlength)
      obtain ⟨hhead, hbranch⟩ := h 0 (.zero _ _)
      obtain rfl : y = condition := Option.some.inj hhead
      rw [branches, branches]
      cases hresult : (y.run host).result with
      | error e => rw [run_bind_of_error hresult, run_bind_of_error hresult]
      | ok v =>
          rw [run_bind_of_ok hresult, run_bind_of_ok hresult]
          rw [outcomes, hresult] at h hbranch
          cases hv : v.truthy with
          | true =>
              obtain rfl : z = branch := Option.some.inj (hbranch v rfl hv)
              rfl
          | false =>
              have hrest := ih (Nat.succ.inj (Nat.succ.inj hlength)) (fun i hi => h (i + 1) (hi.succ hv))
              simp only [Bool.false_eq_true, if_false, hrest]
  | case2 default =>
      obtain ⟨y, rfl⟩ := List.length_eq_one_iff.mp hlength
      obtain rfl : y = default := Option.some.inj (h 0 (.zero _ _)).1
      rfl
  | case3 => rw [List.eq_nil_of_length_eq_zero hlength]

end Action

open JsonRules.Action

namespace Context

variable {c : Context σ}

/-- Two calls of one operator do the same if the operator does the same with their operands, unless they
are too deep. -/
theorem run_call_congr {es others : List Expr} {site : CallSite} {operator : Operator σ}
    (hoperator : c.operator? site = some operator) (hlength : others.length = es.length)
    {data : Value} {host : σ} (h : c.deeper.exceeded? = none →
      let run es := c.environment.run es (Expr.meanings c.environment es (c.depth + 1)) data operator
      (run others).run host = (run es).run host) :
    ((Expr.call site others).evaluate data).run ⟨c, host⟩ =
      ((Expr.call site es).evaluate data).run ⟨c, host⟩ := by
  rw [run_call hoperator, run_call hoperator, hlength]
  cases hexceeded : c.deeper.exceeded? with
  | some limit => rfl
  | none =>
      have hrun := h hexceeded
      dsimp only at hrun ⊢
      rw [hrun]

/-- Operands that are not reached have no part in calls of `and`, `or` and `if`: those that have the
same operands at the positions that are reached give the same result, with the same events.  Of `if`,
the branches of false conditions are not reached either. -/
theorem evaluate_unreached (es others : List Expr) (hlength : others.length = es.length)
    (data : Value) (host : σ) :
    let outcomes (es : List Expr) := Eval.outcomes c.deeper (es.map fun e => e.evaluate data) host
    let Same site := ((Expr.call site others).evaluate data).run ⟨c, host⟩ =
      ((Expr.call site es).evaluate data).run ⟨c, host⟩
    (∀ name decides site, Builtin.Deciding name decides → c.Finds site name →
      (c.deeper.exceeded? = none → ∀ i, Reached decides (outcomes es) i → others[i]? = es[i]?) →
      Same site) ∧
    ∀ site, c.Finds site "if" →
      (c.deeper.exceeded? = none → ∀ i, Reached Value.truthy (outcomes (conditions es)) i →
        others[2 * i]? = es[2 * i]? ∧ ∀ v, (outcomes (conditions es))[i]? = some (.ok v) →
          v.truthy → others[2 * i + 1]? = es[2 * i + 1]?) →
      Same site := by
  intro outcomes Same
  let meaning (e : Expr) : Action σ Value := e.meaning c.environment (c.depth + 1) data
  have houtcomes : ∀ es, outcomes es = Action.outcomes (es.map meaning) host := fun es =>
    Eval.outcomes_map (fun e => e.actsAs_evaluate c.deeper data) es host
  have hmap : ∀ {i : Nat}, others[i]? = es[i]? → (others.map meaning)[i]? = (es.map meaning)[i]? :=
    fun h => by rw [List.getElem?_map, List.getElem?_map, h]
  have hmeanings : (others.map meaning).length = (es.map meaning).length := by
    rw [List.length_map, List.length_map, hlength]
  refine ⟨fun name decides site hname hfound h => ?_, fun site hfound h => ?_⟩
  · refine run_call_congr (hfound.shortCircuit_eq hname) hlength fun hallowed => ?_
    dsimp only
    rw [Builtin.run_shortCircuit, Builtin.run_shortCircuit, hlength]
    split
    · rfl
    · refine firstDeciding_unreached hmeanings (fun i hi => hmap (h hallowed i ?_)) .null
      rwa [houtcomes]
  · refine run_call_congr hfound.conditional_eq hlength fun hallowed => ?_
    dsimp only
    rw [Builtin.run_conditional, Builtin.run_conditional]
    refine branches_unreached hmeanings fun i hi => ?_
    rw [conditions_map, ← houtcomes] at hi ⊢
    obtain ⟨hcondition, hbranch⟩ := h hallowed i hi
    exact ⟨hmap hcondition, fun v hv htrue => hmap (hbranch v hv htrue)⟩

/-- Operands of `if` of which the second condition is the first true one. -/
def choosing (first last : Expr) : List Expr :=
  [.literal (.bool false), first, .literal (.bool true), .literal (.string "chosen"), last]

/-- Neither an operator that is not found nor a tree that is too deep is noticed. -/
theorem evaluate_unreached_choosing :
    (choosing (.call (.named "absent") []) (.array [.array []])).length =
      (choosing (.literal .null) (.literal .null)).length ∧
    ((Expr.call (.named "if") (choosing (.call (.named "absent") []) (.array [.array []]))).evaluate
        .null).run ⟨standard (some 1), ()⟩ =
      ((Expr.call (.named "if") (choosing (.literal .null) (.literal .null))).evaluate
        .null).run ⟨standard (some 1), ()⟩ := by
  have hfound := finds_standard "if" (by decide) (some 1)
  have hunreached := (evaluate_unreached (c := standard (some 1))
    (choosing (.literal .null) (.literal .null))
    (choosing (.call (.named "absent") []) (.array [.array []])) rfl .null ()).2 _ hfound
  refine ⟨rfl, hunreached fun _ i hi => ?_⟩
  match i with
  | 0 =>
    refine ⟨rfl, fun v hv htrue => ?_⟩
    obtain rfl : .bool false = v := Except.ok.inj (Option.some.inj hv)
    cases htrue
  | 1 => exact ⟨rfl, fun _ _ _ => rfl⟩
  | i + 2 =>
    obtain ⟨v, hv, hfalse⟩ := hi 1 (by omega)
    obtain rfl : .bool true = v := Except.ok.inj (Option.some.inj hv)
    cases hfalse

end Context

end JsonRules
