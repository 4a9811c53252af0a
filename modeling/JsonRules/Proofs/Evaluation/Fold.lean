import JsonRules.Proofs.Evaluation.Effect
import JsonRules.Proofs.Evaluation.Elements

/-!
# Reductions

`reduce` folds its body over the elements of the source from the left, so a reduction over two arrays in
a row goes on from where the one over the first has come to.  A reduction that merges what `map` or
`filter` gives for the current element alone does what they do for the whole source.
-/

namespace JsonRules

variable {σ : Type}

open JsonRules.Action JsonRules.Environment

namespace Builtin

variable {env : Environment σ}

theorem run_scopedReduce (args : List Expr) (operands : List (Value → Action σ Value))
    (data : Value) :
    env.run args operands data (.lazy scopedReduce) =
      (do
        let v ← operand operands 0 data
        let initial ← operand operands 2 data
        (v.asArray?.getD []).foldlM
          (fun acc element => operand operands 1 (reduction element acc)) initial) := by
  simp only [run_lazy, scopedReduce, answer_bind, answer_source, answer_evaluate,
    answer_reduceElements, bind_assoc, pure_bind]

theorem run_ofFunction (f : List Value → Value → Except Error Value) (args : List Expr)
    (operands : List (Value → Action σ Value)) (data : Value) :
    env.run args operands data (.ofFunction f) =
      values operands data >>= fun vs => ExceptT.mk (pure (f vs data)) := rfl

theorem var_current (element acc : Value) :
    var [.string "current"] (reduction element acc) = .ok element := rfl

theorem var_accumulator (element acc : Value) :
    var [.string "accumulator"] (reduction element acc) = .ok acc := rfl

theorem merge_arrays (vs ws : List Value) : merge [.array vs, .array ws] = vs ++ ws := by
  simp [merge, elements]

end Builtin

/-- The body of a reduction that merges the accumulator with what `inner` gives for the current element
alone. -/
def Expr.collecting (merge accumulator inner current : CallSite) (L : Expr) : Expr :=
  .call merge [.call accumulator [.literal (.string "accumulator")],
    .call inner [.array [.call current [.literal (.string "current")]], L]]

/-- For the sites of `collecting` the environment finds the operators that it is made of; the inner one
collects what each element adds. -/
structure Expr.Collects (env : Environment σ) (merge accumulator inner current : CallSite)
    (part : Value → Value → List Value) : Prop where
  merge : env.operator merge = .ok (.ofFunction fun args _ => .ok (.array (Builtin.merge args)))
  accumulator : env.operator accumulator = .ok (.ofFunction Builtin.var)
  current : env.operator current = .ok (.ofFunction Builtin.var)
  inner : ∃ operator, env.operator inner = .ok operator ∧ operator.LoopsAs (collect part) .array

namespace Expr

theorem values_pair_sameEffect {env : Environment σ} {depth : Nat} {e f : Expr} {data v : Value}
    (h : SameEffect (e.meaning env depth data) (pure v)) :
    SameEffect (values (meanings env [e, f] depth) data)
      (f.meaning env depth data >>= fun w => pure [v, w]) := by
  rw [values_meanings_cons, values_meanings_cons]
  refine (h.bind_left _).trans (.of_eq ?_)
  rw [pure_bind, bind_assoc]
  rfl

section Free

variable {env : Environment σ} (hfree : env.maxDepth = none) (depth : Nat)

include hfree

theorem var_sameEffect {site : CallSite} (h : env.operator site = .ok (.ofFunction Builtin.var))
    {path : String} {data v : Value} (hv : Builtin.var [.string path] data = .ok v) :
    SameEffect ((call site [literal (.string path)]).meaning env depth data) (pure v) := by
  refine (call_sameEffect hfree h _ depth data).trans (.of_eq ?_)
  change (ExceptT.mk (pure (Builtin.var [.string path] data)) : Action σ Value) = pure v
  rw [hv]
  rfl

theorem loop_sameEffect {α : Type} {site : CallSite} {operator : Operator σ}
    {loop : (Value → Action σ Value) → List Value → Action σ α} {post : α → Value}
    (h : env.operator site = .ok operator) (hloop : operator.LoopsAs loop post) (A L : Expr)
    (data : Value) :
    SameEffect ((call site [A, L]).meaning env depth data) (do
      let v ← A.meaning env depth data
      let a ← loop (L.meaning env depth) (v.asArray?.getD [])
      pure (post a)) :=
  (call_sameEffect hfree h _ depth data).trans (.of_eq (hloop _ _ _ _))

theorem singleton_sameEffect {e : Expr} {data v : Value}
    (h : SameEffect (e.meaning env depth data) (pure v)) :
    SameEffect ((array [e]).meaning env depth data) (pure (.array [v])) := by
  rw [meaning_array, nested_of_maxDepth_eq_none hfree, meanings_depth hfree [e] (depth + 1) depth,
    values_meanings_cons, ← bind_pure_comp]
  exact (h.bind_left _).bind_left _

variable {merge accumulator inner current : CallSite} {part : Value → Value → List Value}
  (h : Collects env merge accumulator inner current part)

include h

theorem collecting_sameEffect (L : Expr) (element : Value) (acc : List Value) :
    SameEffect ((collecting merge accumulator inner current L).meaning env depth
        (Builtin.reduction element (.array acc)))
      (L.meaning env depth element >>= fun v => pure (.array (acc ++ part element v))) := by
  obtain ⟨operator, hinner, hloop⟩ := h.inner
  have hacc := var_sameEffect hfree depth h.accumulator
    (Builtin.var_accumulator element (.array acc))
  have hcurrent := singleton_sameEffect hfree depth (var_sameEffect hfree depth h.current
    (Builtin.var_current element (.array acc)))
  -- The inner call loops over the current element alone.
  have hpart := ((loop_sameEffect hfree depth hinner hloop _ L _).trans
    (hcurrent.bind_left _)).bind_left fun w => pure [.array acc, w]
  simp only [Value.asArray?, Option.getD_some, collect, pure_bind, bind_assoc, List.append_nil]
    at hpart
  have hvalues := (values_pair_sameEffect hacc).trans hpart
  refine (call_sameEffect hfree h.merge _ depth _).trans ((hvalues.bind_left _).trans (.of_eq ?_))
  rw [bind_assoc]
  refine bind_congr fun v => ?_
  rw [pure_bind, ← Builtin.merge_arrays]
  rfl

theorem foldlM_sameEffect (L : Expr) (elements acc : List Value) :
    SameEffect
      (elements.foldlM (fun acc element => (collecting merge accumulator inner current L).meaning
        env depth (Builtin.reduction element acc)) (.array acc))
      (collect part (L.meaning env depth) elements >>= fun parts =>
        pure (.array (acc ++ parts))) := by
  induction elements generalizing acc with
  | nil =>
      rw [List.foldlM_nil, collect, pure_bind, List.append_nil]
  | cons element rest ih =>
      rw [List.foldlM_cons]
      refine ((collecting_sameEffect hfree depth h L element acc).bind_left _).trans ?_
      simp only [collect, bind_assoc, pure_bind, ← List.append_assoc]
      exact .bind_right _ fun v => ih _

theorem call_sameEffect_reduce {outer reduce : CallSite} {operator : Operator σ}
    (houter : env.operator outer = .ok operator) (hloop : operator.LoopsAs (collect part) .array)
    (hreduce : env.operator reduce = .ok (.lazy Builtin.scopedReduce)) (A L : Expr)
    (data : Value) :
    SameEffect ((call outer [A, L]).meaning env depth data)
      ((call reduce [A, collecting merge accumulator inner current L, literal (.array [])]).meaning
        env depth data) := by
  refine (loop_sameEffect hfree depth houter hloop A L data).trans
    (.trans ?_ (call_sameEffect hfree hreduce _ depth data).symm)
  rw [Builtin.run_scopedReduce]
  exact .bind_right _ fun v => (foldlM_sameEffect hfree depth h L _ []).symm

end Free

end Expr

namespace Context

variable {c : Context σ}

/-- The left fold of the elements by the body of a call at the depth of the context: the body is evaluated
against each element, one after the other, with the accumulator that it gave for the elements before. -/
def reducing (c : Context σ) (f : Expr) (elements : List Value) (initial : Value) :
    Action σ Value :=
  elements.foldlM (fun acc element =>
    f.meaning c.environment (c.depth + 1) (Builtin.reduction element acc)) initial

theorem reducing_append (f : Expr) (xs ys : List Value) (initial : Value) :
    c.reducing f (xs ++ ys) initial = c.reducing f xs initial >>= c.reducing f ys :=
  List.foldlM_append

theorem run_reduce (hfree : c.maxDepth = none) {reduce : CallSite}
    (h : c.operator? reduce = some (.lazy Builtin.scopedReduce)) (f : Expr) (data : Value)
    (items : List Value) (initial : Value) (host : σ) :
    ((Expr.call reduce [.literal (.array items), f, .literal initial]).evaluate data).run ⟨c, host⟩ =
      ⟨((c.reducing f items initial).run host).result,
        .applied reduce.name 3 :: ((c.reducing f items initial).run host).events,
        ⟨c, ((c.reducing f items initial).run host).state⟩⟩ := by
  have hallowed : c.deeper.exceeded? = none := by
    rw [exceeded?, deeper, hfree]
    rfl
  rw [run_call h, hallowed]
  dsimp only
  rw [Builtin.run_scopedReduce]
  rfl

theorem exists_collect {name : String} (hname : name ∈ ["map", "filter"]) :
    ∃ (part : Value → Value → List Value) (operator : Operator σ),
      operator.LoopsAs (collect part) .array ∧
        ∀ site, c.Finds site name → c.operator? site = some operator := by
  rcases List.mem_pair.mp hname with rfl | rfl
  · exact ⟨_, _, Builtin.loopsAs_scopedMap, fun _ h => h.lazily_eq (by simp [Builtin.arrayFamily])⟩
  · exact ⟨_, _, Builtin.loopsAs_scopedFilter, fun _ h =>
      h.lazily_eq (by simp [Builtin.arrayFamily])⟩

theorem collects_of_finds {merge accumulator inner current : CallSite}
    {part : Value → Value → List Value} {operator : Operator σ} (hmerge : c.Finds merge "merge")
    (hacc : c.Finds accumulator "var") (hcurrent : c.Finds current "var")
    (hinner : c.operator? inner = some operator) (hloop : operator.LoopsAs (collect part) .array) :
    Expr.Collects c.environment merge accumulator inner current part := by
  have hvar : ∀ {site}, c.Finds site "var" →
      c.environment.operator site = .ok (.ofFunction Builtin.var) := fun h =>
    CallSite.found_eq_ok.mpr (Finds.operator?_eq (d := Builtin.reading "var" Builtin.var) h
      (List.mem_of_getElem? (i := 0) rfl))
  refine ⟨?_, hvar hacc, hvar hcurrent, _, CallSite.found_eq_ok.mpr hinner, hloop⟩
  refine CallSite.found_eq_ok.mpr (Finds.operator?_eq (d := Builtin.total "merge" _) hmerge ?_)
  exact Builtin.mem_definitions_of_mem_arrayFamily List.mem_cons_self

/-- Without a limit, a reduction evaluates its body in a left fold over the elements, and so the reduction
of two arrays in a row is that of the first, followed by that of the second from the value which the
first one gives.  With the accumulator merged with what `map` or `filter` gives for the current element
alone, it has the effect of `map` or `filter`. -/
theorem evaluate_reduce (hfree : c.maxDepth = none) {reduce : CallSite}
    (hreduce : c.Finds reduce "reduce") :
    (∀ (items : List Value) (f : Expr) (v data : Value) (host : σ),
      let ran := (c.reducing f items v).run host
      ((Expr.call reduce [.literal (.array items), f, .literal v]).evaluate data).run ⟨c, host⟩ =
        ⟨ran.result, .applied reduce.name 3 :: ran.events, ⟨c, ran.state⟩⟩) ∧
    (∀ (xs ys : List Value) (f : Expr) (v data : Value) (host : σ),
      let fold (items : List Value) (initial : Value) :=
        ((Expr.call reduce [.literal (.array items), f, .literal initial]).evaluate data).run
      let whole := fold (xs ++ ys) v ⟨c, host⟩
      let first := fold xs v ⟨c, host⟩
      ∃ early, first.events = .applied reduce.name 3 :: early ∧
        (∀ e, first.result = .error e → whole = first) ∧
        ∀ r, first.result = .ok r →
          let second := fold ys r first.state
          ∃ late, second.events = .applied reduce.name 3 :: late ∧
            whole = ⟨second.result, .applied reduce.name 3 :: (early ++ late), second.state⟩) ∧
    ∀ name ∈ ["map", "filter"], ∀ outer merge accumulator inner current : CallSite,
      c.Finds outer name → c.Finds merge "merge" → c.Finds accumulator "var" →
      c.Finds inner name → c.Finds current "var" →
      ∀ (A L : Expr) (data : Value) (host : σ),
        (((Expr.call outer [A, L]).evaluate data).run ⟨c, host⟩).SameEffect
          (((Expr.call reduce [A, .collecting merge accumulator inner current L,
            .literal (.array [])]).evaluate data).run ⟨c, host⟩) := by
  have hoperator := hreduce.lazily_eq (f := Builtin.scopedReduce) (by simp [Builtin.arrayFamily])
  refine ⟨fun items f v data host => run_reduce hfree hoperator f data items v host,
    fun xs ys f v data host => ?_, fun name hname outer merge accumulator inner current houter
    hmerge hacc hinner hcurrent A L data host => sameEffect_of_meaning ?_ host⟩
  · intro fold whole first
    have hfold : ∀ items initial host, fold items initial ⟨c, host⟩ = _ :=
      run_reduce hfree hoperator f data
    have hfirst : first = _ := hfold xs v host
    have hwhole : whole = _ := hfold (xs ++ ys) v host
    rw [hfirst, hwhole, reducing_append]
    refine ⟨_, rfl, fun e (he : ((c.reducing f xs v).run host).result = .error e) => ?_,
      fun r (hr : ((c.reducing f xs v).run host).result = .ok r) => ?_⟩
    · rw [run_bind_of_error he, he]
    · intro second
      have hsecond : second = _ := hfold ys r ((c.reducing f xs v).run host).state
      rw [run_bind_of_ok hr, hsecond]
      exact ⟨_, rfl, rfl⟩
  · obtain ⟨part, operator, hloop, hfound⟩ := exists_collect (c := c) hname
    have hcollects := collects_of_finds hmerge hacc hcurrent (hfound inner hinner) hloop
    exact Expr.call_sameEffect_reduce hfree _ hcollects (CallSite.found_eq_ok.mpr (hfound outer houter))
      hloop (CallSite.found_eq_ok.mpr hoperator) A L data

theorem evaluate_reduce_standard : ∃ c : Context Unit, c.maxDepth = none ∧
    c.Finds (.named "reduce") "reduce" ∧ ∀ (A L : Expr) (data : Value),
      (((Expr.call (.named "filter") [A, L]).evaluate data).run ⟨c, ()⟩).SameEffect
        (((Expr.call (.named "reduce") [A,
          .collecting (.named "merge") (.named "var") (.named "filter") (.named "var") L,
          .literal (.array [])]).evaluate data).run ⟨c, ()⟩) := by
  have hfilter := finds_standard "filter" (by decide) none
  have hmerge := finds_standard "merge" (by decide) none
  have hreduce := finds_standard "reduce" (by decide) none
  have hvar := finds_standard "var" (by decide) none
  refine ⟨standard none, rfl, hreduce, fun A L data => ?_⟩
  exact (evaluate_reduce rfl hreduce).2.2 "filter" (by decide) _ _ _ _ _ hfilter hmerge hvar hfilter hvar
    A L data ()

end Context

end JsonRules
