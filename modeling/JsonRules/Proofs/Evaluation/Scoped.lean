import JsonRules.Proofs.Evaluation.Elements
import JsonRules.Proofs.Operator.Kind

/-!
# Scoped operators on one array and one body

`map`, `filter`, `some`, `none` and `all` evaluate their source in the same way and then the body against
the same elements in the same order.  So what `map` gives, be it values or a failure at an element, tells
what the other four give.  Those that stop early do not come to a failure behind the element that
decides.
-/

namespace JsonRules

variable {σ : Type}

open JsonRules.Action JsonRules.Environment

namespace Context

variable {c : Context σ} {A L : Expr} {data : Value} {host : σ} {α : Type}
  {loop : (Value → Action σ Value) → List Value → Action σ α} {post : α → Value}

/-- The result of a call that evaluates the source `A` and loops over its elements with the body `L`. -/
def loopResult (c : Context σ) (A L : Expr) (data : Value) (host : σ)
    (loop : (Value → Action σ Value) → List Value → Action σ α) (post : α → Value) :
    Except Error Value :=
  let source := (A.evaluate data).run ⟨c.deeper, host⟩
  match c.deeper.exceeded?, source.result with
  | some limit, _ => .error (.depthLimitExceeded limit)
  | none, .error e => .error e
  | none, .ok v =>
      ((loop (L.meaning c.environment (c.depth + 1)) (v.asArray?.getD [])).run
        source.state.host).result.map post

theorem result_of_loopsAs {site : CallSite} {operator : Operator σ}
    (h : c.operator? site = some operator) (hloop : operator.LoopsAs loop post) :
    (((Expr.call site [A, L]).evaluate data).run ⟨c, host⟩).result =
      c.loopResult A L data host loop post := by
  have hsource : (A.evaluate data).run ⟨c.deeper, host⟩ =
      ((A.meaning c.environment (c.depth + 1) data).run host).within c.deeper :=
    A.actsAs_evaluate c.deeper data host
  have hoperand : operand (Expr.meanings c.environment [A, L] (c.depth + 1)) 0 data =
      A.meaning c.environment (c.depth + 1) data := rfl
  rw [run_call h, loopResult, hsource]
  cases c.deeper.exceeded? with
  | some limit => rfl
  | none =>
      dsimp only [Ran.within]
      rw [hloop, hoperand]
      cases hresult : ((A.meaning c.environment (c.depth + 1) data).run host).result with
      | error e => rw [run_bind_of_error hresult]
      | ok v =>
          rw [run_bind_of_ok hresult]
          exact result_bind_pure _ _ _

section Found

variable {site : String → CallSite}
  (hfound : ∀ name ∈ Builtin.elementwiseNames, c.Finds (site name) name)

include hfound

theorem scoped_eq_loopResult (A L : Expr) (data : Value) (host : σ) :
    let result name := (((Expr.call (site name) [A, L]).evaluate data).run ⟨c, host⟩).result
    result "map" = c.loopResult A L data host (collect Builtin.mapped) .array ∧
    result "filter" = c.loopResult A L data host (collect Builtin.kept) .array ∧
    result "some" = c.loopResult A L data host (anyTruth true) .bool ∧
    result "none" = c.loopResult A L data host (anyTruth true) (.bool !·) ∧
    result "all" = c.loopResult A L data host (anyTruth false) (.bool !·) := by
  intro result
  have hresult : ∀ {α : Type} {name f} {loop : _ → _ → Action σ α} {post : α → Value},
      name ∈ Builtin.elementwiseNames → Builtin.lazily name [] f ∈ Builtin.arrayFamily →
      (.lazy f : Operator σ).LoopsAs loop post →
      result name = c.loopResult A L data host loop post := fun hname hmem hloop =>
    result_of_loopsAs ((hfound _ hname).lazily_eq hmem) hloop
  refine ⟨?_, ?_, ?_, ?_, ?_⟩
  · exact hresult (by decide) (by simp [Builtin.arrayFamily]) Builtin.loopsAs_scopedMap
  · exact hresult (by decide) (by simp [Builtin.arrayFamily]) Builtin.loopsAs_scopedFilter
  · exact hresult (by decide) (by simp [Builtin.arrayFamily]) Builtin.loopsAs_scopedSome
  · exact hresult (by decide) (by simp [Builtin.arrayFamily]) Builtin.loopsAs_scopedNone
  · exact hresult (by decide) (by simp [Builtin.arrayFamily]) Builtin.loopsAs_scopedAll

theorem exists_loopResult {name : String} (hname : name ∈ Builtin.elementwiseNames) :
    ∃ (α : Type) (loop : (Value → Action σ Value) → List Value → Action σ α) (post : α → Value),
      (((Expr.call (site name) [A, L]).evaluate data).run ⟨c, host⟩).result =
        c.loopResult A L data host loop post := by
  obtain ⟨hmap, hfilter, hsome, hnone, hall⟩ :=
    scoped_eq_loopResult hfound A L data host
  simp only [Builtin.elementwiseNames, List.mem_cons, List.not_mem_nil, or_false] at hname
  rcases hname with rfl | rfl | rfl | rfl | rfl
  · exact ⟨_, _, _, hmap⟩
  · exact ⟨_, _, _, hfilter⟩
  · exact ⟨_, _, _, hall⟩
  · exact ⟨_, _, _, hsome⟩
  · exact ⟨_, _, _, hnone⟩

end Found

theorem any_truthy_beq_true (values : List Value) :
    (values.any fun v => v.truthy == true) = values.any Value.truthy := by
  simp only [beq_true]

theorem any_truthy_beq_false (values : List Value) :
    (values.any fun v => v.truthy == false) = !values.all Value.truthy := by
  simp only [beq_false, List.not_all_eq_any_not]

section Loops

variable (hallowed : c.deeper.exceeded? = none) {v : Value}
  (hsource : ((A.evaluate data).run ⟨c.deeper, host⟩).result = .ok v)

include hallowed hsource

theorem loopResult_of_ok :
    c.loopResult A L data host loop post =
      ((loop (L.meaning c.environment (c.depth + 1)) (v.asArray?.getD [])).run
        ((A.evaluate data).run ⟨c.deeper, host⟩).state.host).result.map post := by
  rw [loopResult, hallowed, hsource]

variable {outcomes : List (Except Error Value)}
  (houtcomes : outcomes =
    Action.outcomes ((v.asArray?.getD []).map (L.meaning c.environment (c.depth + 1)))
      ((A.evaluate data).run ⟨c.deeper, host⟩).state.host)
  {values : List Value} {e : Error} {others : List (Except Error Value)}

include houtcomes

theorem loopResult_collect (h : outcomes = values.map .ok) (part : Value → Value → List Value)
    (post : List Value → Value) :
    c.loopResult A L data host (collect part) post =
      .ok (post (((v.asArray?.getD []).zip values).flatMap fun p => part p.1 p.2)) := by
  rw [houtcomes] at h
  exact (loopResult_of_ok hallowed hsource).trans
    (congrArg (Except.map post) (collect_of_values part h))

theorem loopResult_collect_of_failure (h : outcomes = values.map .ok ++ .error e :: others)
    (part : Value → Value → List Value) (post : List Value → Value) :
    c.loopResult A L data host (collect part) post = .error e := by
  rw [houtcomes] at h
  exact (loopResult_of_ok hallowed hsource).trans
    (congrArg (Except.map post) (collect_of_failure part h))

theorem loopResult_anyTruth (h : outcomes = values.map .ok) (wanted : Bool)
    (post : Bool → Value) :
    c.loopResult A L data host (anyTruth wanted) post =
      .ok (post (values.any fun v => v.truthy == wanted)) := by
  rw [houtcomes] at h
  exact (loopResult_of_ok hallowed hsource).trans
    (congrArg (Except.map post) (anyTruth_of_values wanted h))

theorem loopResult_anyTruth_of_failure (h : outcomes = values.map .ok ++ .error e :: others)
    (wanted : Bool) (post : Bool → Value) :
    c.loopResult A L data host (anyTruth wanted) post =
      if values.any fun v => v.truthy == wanted then .ok (post true) else .error e := by
  rw [houtcomes] at h
  have hresult := (loopResult_of_ok hallowed hsource).trans
    (congrArg (Except.map post) (anyTruth_of_failure wanted h))
  exact hresult.trans (apply_ite _ _ _ _)

end Loops

/-- The operators that are applied to the elements of one array with one body agree with each other.
If `map` succeeds, it gives the values of the body; `filter` keeps the elements with a true one, `some`
and `none` tell whether there is one, and `all` whether all are true.  If `map` fails at an element, so
does `filter`, and so do the other three unless an element before that one decides.  A failure of the
source is that of all five. -/
theorem evaluate_scoped {site : String → CallSite}
    (hfound : ∀ name ∈ Builtin.elementwiseNames, c.Finds (site name) name) (A L : Expr)
    (data : Value) (host : σ) :
    let result name := (((Expr.call (site name) [A, L]).evaluate data).run ⟨c, host⟩).result
    let source := (A.evaluate data).run ⟨c.deeper, host⟩
    (∀ limit, c.deeper.exceeded? = some limit →
      ∀ name ∈ Builtin.elementwiseNames, result name = .error (.depthLimitExceeded limit)) ∧
    (c.deeper.exceeded? = none →
      (∀ e, source.result = .error e →
        ∀ name ∈ Builtin.elementwiseNames, result name = .error e) ∧
      ∀ v, source.result = .ok v →
        let elements := v.asArray?.getD []
        let outcomes := Eval.outcomes c.deeper (elements.map L.evaluate) source.state.host
        (∀ w, result "map" = .ok w → ∃ values : List Value,
          w = .array values ∧ values.length = elements.length ∧ outcomes = values.map .ok ∧
          result "filter" =
            .ok (.array (((elements.zip values).filter fun p => p.2.truthy).map Prod.fst)) ∧
          result "some" = .ok (.bool (values.any Value.truthy)) ∧
          result "none" = .ok (.bool !values.any Value.truthy) ∧
          result "all" = .ok (.bool (values.all Value.truthy))) ∧
        ∀ e, result "map" = .error e → ∃ (values : List Value)
            (others : List (Except Error Value)),
          outcomes = values.map .ok ++ .error e :: others ∧
          result "filter" = .error e ∧
          result "some" = (if values.any Value.truthy then .ok (.bool true) else .error e) ∧
          result "none" = (if values.any Value.truthy then .ok (.bool false) else .error e) ∧
          result "all" = if values.all Value.truthy then .error e else .ok (.bool false)) := by
  intro result source
  refine ⟨fun limit hlimit name hname => ?_, fun hallowed => ⟨fun e he name hname => ?_, ?_⟩⟩
  · obtain ⟨α, loop, post, hresult⟩ := exists_loopResult hfound hname
    exact hresult.trans (by rw [loopResult, hlimit])
  · obtain ⟨α, loop, post, hresult⟩ := exists_loopResult hfound hname
    exact hresult.trans (by rw [loopResult, hallowed, he])
  intro v hv elements outcomes
  obtain ⟨hmap, hfilter, hsome, hnone, hall⟩ := scoped_eq_loopResult hfound A L data host
  have houtcomes := Eval.outcomes_map (L.actsAs_evaluate c.deeper) elements source.state.host
  -- Whether `map` succeeds depends on the outcomes alone, so both premises are checked in both cases.
  rcases values_or_failure outcomes with ⟨values, hvalues⟩ | ⟨values, e, others, hfailure⟩
  · have hlength : values.length = elements.length := by
      have hlengths := congrArg List.length hvalues
      rwa [Eval.length_outcomes, List.length_map, List.length_map, eq_comm] at hlengths
    rw [loopResult_collect hallowed hv houtcomes hvalues, Builtin.flatMap_mapped hlength] at hmap
    rw [loopResult_collect hallowed hv houtcomes hvalues, Builtin.flatMap_kept] at hfilter
    rw [loopResult_anyTruth hallowed hv houtcomes hvalues, any_truthy_beq_true] at hsome hnone
    rw [loopResult_anyTruth hallowed hv houtcomes hvalues, any_truthy_beq_false, Bool.not_not] at hall
    refine ⟨fun w hw => ?_, fun e he => ?_⟩
    · have hw : w = .array values := Except.ok.inj (hw.symm.trans hmap)
      exact ⟨values, hw, hlength, hvalues, hfilter, hsome, hnone, hall⟩
    · cases hmap.symm.trans he
  · rw [loopResult_collect_of_failure hallowed hv houtcomes hfailure] at hmap hfilter
    rw [loopResult_anyTruth_of_failure hallowed hv houtcomes hfailure, any_truthy_beq_true] at hsome hnone
    rw [loopResult_anyTruth_of_failure hallowed hv houtcomes hfailure, any_truthy_beq_false] at hall
    refine ⟨fun w hw => ?_, fun e' he' => ?_⟩
    · cases hmap.symm.trans hw
    · obtain rfl : e = e' := Except.error.inj (hmap.symm.trans he')
      refine ⟨values, others, hfailure, hfilter, hsome, hnone, hall.trans ?_⟩
      cases values.all Value.truthy <;> rfl

/-- Fails for an element that is an array. -/
def leadingNowhere : Expr :=
  .call (.named "!") [.call (.named "var") [.call (.named "var") [.literal (.string "")]]]

set_option maxRecDepth 2000 in
theorem evaluate_scoped_leadingNowhere : ∃ (c : Context Unit) (A : Expr) (e : Error),
    (∀ name ∈ Builtin.elementwiseNames, c.Finds (.named name) name) ∧
    let result name :=
      (((Expr.call (.named name) [A, leadingNowhere]).evaluate .null).run ⟨c, ()⟩).result
    result "map" = .error e ∧ result "filter" = .error e ∧ result "some" = .ok (.bool true) := by
  have hnames : ∀ name ∈ Builtin.elementwiseNames,
      name ∈ Builtin.names ∧ Builtin.mainName name = name := by decide
  have hfound : ∀ name ∈ Builtin.elementwiseNames, (standard none).Finds (.named name) name :=
    fun name hname => finds_standard name (hnames name hname) none
  have hscoped := evaluate_scoped hfound (.literal (.array [.bool true, .array []])) leadingNowhere
    .null ()
  obtain ⟨values, others, _, hfilter, _⟩ := ((hscoped.2 rfl).2 _ rfl).2 _ rfl
  exact ⟨_, _, _, hfound, rfl, hfilter, rfl⟩

end Context

end JsonRules
