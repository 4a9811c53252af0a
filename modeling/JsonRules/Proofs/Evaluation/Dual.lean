import JsonRules.Proofs.Evaluation.Fold
import JsonRules.Proofs.Evaluation.Regrouped

/-!
# Duality

The opposite of an `and` is the `or` of the opposites, and the other way round.  `all` with a body is
`none` with the opposite body, `none` is the opposite of `some`, and the opposite of `all` is `some` with
the opposite body.  Both sides stop at the same operand or element, so they fail alike and log the same.
-/

namespace JsonRules

variable {σ : Type}

/-- What `!` gives for a value. -/
def Value.opposite (v : Value) : Value := .bool !v.truthy

theorem Value.truthy_opposite (v : Value) : v.opposite.truthy = !v.truthy := rfl

namespace Action

def negated (x : Action σ Value) : Action σ Value := do
  let v ← x
  pure v.opposite

/-- Operands and their opposites are decided at the same place if a value decides exactly when its
opposite does on the other side. -/
theorem negated_firstDeciding {decides dual : Value → Bool}
    (h : ∀ v : Value, dual v.opposite = decides v) (last : Value)
    (xs : List (Action σ Value)) :
    negated (firstDeciding decides last xs) =
      firstDeciding dual last.opposite (xs.map negated) := by
  induction xs generalizing last with
  | nil => exact pure_bind _ _
  | cons x rest ih =>
      simp only [firstDeciding, List.map_cons, negated, bind_assoc, pure_bind, h]
      refine bind_congr fun v => ?_
      cases decides v with
      | true => exact pure_bind _ _
      | false => exact ih v

theorem firstDeciding_last {decides : Value → Bool} {xs : List (Action σ Value)} (hxs : xs ≠ [])
    (last other : Value) : firstDeciding decides last xs = firstDeciding decides other xs := by
  obtain ⟨x, rest, rfl⟩ := List.exists_cons_of_ne_nil hxs
  rw [firstDeciding, firstDeciding]

/-- Opposite values have the other truth. -/
theorem anyTruth_negated (wanted : Bool) (body : Value → Action σ Value) (elements : List Value) :
    anyTruth wanted (fun element => negated (body element)) elements =
      anyTruth (!wanted) body elements := by
  induction elements with
  | nil => rfl
  | cons element rest ih =>
      rw [anyTruth, anyTruth, negated, bind_assoc]
      refine bind_congr fun v => ?_
      simp only [pure_bind, Value.truthy_opposite, Bool.not_eq_eq_eq_not, ih]

theorem anyTruth_sameEffect {body other : Value → Action σ Value}
    (h : ∀ element, SameEffect (body element) (other element)) (wanted : Bool)
    (elements : List Value) :
    SameEffect (anyTruth wanted body elements) (anyTruth wanted other elements) := by
  induction elements with
  | nil => exact .refl _
  | cons element rest ih =>
      refine (h element).bind fun v => ?_
      split
      · exact .refl _
      · exact ih

end Action

open JsonRules.Action JsonRules.Environment

namespace Builtin

/-- The operator `!`. -/
def notOperator : Operator σ := .ofFunction fun args _ => .ok (.bool (negation args))

/-- A value decides the one operator exactly when its opposite decides the other one. -/
theorem Deciding.dual {name other : String} {decides dual : Value → Bool}
    (h : Deciding name decides) (hother : Deciding other dual) (hne : name ≠ other) (v : Value) :
    dual v.opposite = decides v := by
  cases h with
  | and =>
      cases hother with
      | and => exact absurd rfl hne
      | or => rfl
  | or =>
      cases hother with
      | and => exact Bool.not_not _
      | or => exact absurd rfl hne

end Builtin

theorem Context.Finds.not_eq {c : Context σ} {site : CallSite} (h : c.Finds site "!") :
    c.operator? site = some Builtin.notOperator :=
  h.operator?_eq (d := Builtin.test "!" Builtin.negation) (List.mem_of_getElem? (i := 5) rfl)

namespace Expr

variable {env : Environment σ} (hfree : env.maxDepth = none) (depth : Nat) (data : Value)

include hfree

theorem not_sameEffect {site : CallSite} (h : env.operator site = .ok Builtin.notOperator) (e : Expr) :
    SameEffect ((call site [e]).meaning env depth data) (negated (e.meaning env depth data)) := by
  refine (call_sameEffect hfree h [e] depth data).trans (.of_eq ?_)
  rw [Builtin.notOperator, Builtin.run_ofFunction, values_meanings_cons, bind_assoc]
  rfl

/-- A call of a short-circuit operator with opposite operands has the opposite effect. -/
theorem shortCircuit_dual {inner outer : CallSite} {name other : String} {decides dual : Value → Bool}
    (hinner : env.operator inner = .ok (.lazy (Builtin.shortCircuit name decides)))
    (houter : env.operator outer = .ok (.lazy (Builtin.shortCircuit other dual)))
    (hdual : ∀ v : Value, dual v.opposite = decides v) {es negations : List Expr}
    (hes : es ≠ [])
    (hnegations : List.Forall₂ (fun e n : Expr =>
      SameEffect (negated (e.meaning env depth data)) (n.meaning env depth data)) es negations) :
    SameEffect (negated ((call inner es).meaning env depth data))
      ((call outer negations).meaning env depth data) := by
  let run (es : List Expr) := es.map fun e => e.meaning env depth data
  have hrun : (run es).map negated ≠ [] := by simpa [run] using hes
  have hne : negations ≠ [] := by
    rintro rfl
    exact hes (List.forall₂_nil_right_iff.mp hnegations)
  have hoperands : List.Forall₂ SameEffect ((run es).map negated) (run negations) := by
    simpa only [run, List.map_map, List.forall₂_map_left_iff, List.forall₂_map_right_iff,
      Function.comp_apply] using hnegations
  calc
    SameEffect _ (negated (firstDeciding decides .null (run es))) :=
      (shortCircuit_sameEffect hfree depth data hinner hes).bind_left _
    _ = firstDeciding dual Value.null.opposite ((run es).map negated) := negated_firstDeciding hdual .null _
    _ = firstDeciding dual .null ((run es).map negated) := firstDeciding_last hrun _ _
    SameEffect _ (firstDeciding dual .null (run negations)) :=
      firstDeciding_sameEffect hoperands .null
    SameEffect _ _ := (shortCircuit_sameEffect hfree depth data houter hne).symm

/-- Whether the source `A` has an element for which the body `L` has the truth `wanted`. -/
def search (env : Environment σ) (depth : Nat) (A L : Expr) (data : Value) (wanted : Bool) :
    Action σ Bool := do
  let v ← A.meaning env depth data
  anyTruth wanted (L.meaning env depth) (v.asArray?.getD [])

variable {site : CallSite} {operator : Operator σ} {wanted : Bool} {post : Bool → Value}
  (h : env.operator site = .ok operator) (hloop : operator.LoopsAs (anyTruth wanted) post)

include h hloop

theorem quantifier_sameEffect (A L : Expr) :
    SameEffect ((call site [A, L]).meaning env depth data)
      (search env depth A L data wanted >>= fun found => pure (post found)) := by
  refine (loop_sameEffect hfree depth h hloop A L data).trans (.of_eq ?_)
  rw [search, bind_assoc]

/-- A quantifier with the opposite body looks for the other truth. -/
theorem quantifier_negation_sameEffect (A : Expr) {L N : Expr} (hN : ∀ element,
      SameEffect (N.meaning env depth element) (negated (L.meaning env depth element))) :
    SameEffect ((call site [A, N]).meaning env depth data)
      (search env depth A L data (!wanted) >>= fun found => pure (post found)) := by
  refine (quantifier_sameEffect hfree depth data h hloop A N).trans (.bind_left (.bind_right _ ?_) _)
  intro v
  rw [← anyTruth_negated]
  exact anyTruth_sameEffect hN wanted _

theorem negated_quantifier_sameEffect (A L : Expr) :
    SameEffect (negated ((call site [A, L]).meaning env depth data))
      (search env depth A L data wanted >>= fun found => pure (post found).opposite) := by
  refine ((quantifier_sameEffect hfree depth data h hloop A L).bind_left _).trans (.of_eq ?_)
  simp only [bind_assoc, pure_bind]

end Expr

namespace Context

variable {c : Context σ}

/-- The second tree is a call of `!` with the first one as its operand. -/
def Negates (c : Context σ) (e negation : Expr) : Prop :=
  ∃ site, c.Finds site "!" ∧ negation = .call site [e]

theorem Negates.sameEffect (hfree : c.maxDepth = none) {e negation : Expr}
    (h : c.Negates e negation) (depth : Nat) (data : Value) :
    SameEffect (negation.meaning c.environment depth data)
      (negated (e.meaning c.environment depth data)) := by
  obtain ⟨site, hsite, rfl⟩ := h
  exact Expr.not_sameEffect hfree depth data (CallSite.found_eq_ok.mpr hsite.not_eq) e

/-- Without a limit, `and` and `or` are dual to each other for any operands, of which there is at least
one, and so are `all`, `some` and `none` for any source and body. -/
theorem evaluate_dual (hfree : c.maxDepth = none) (data : Value) (host : σ) :
    let run (e : Expr) := (e.evaluate data).run ⟨c, host⟩
    (∀ names ∈ [("and", "or"), ("or", "and")], ∀ inner outer,
      c.Finds inner names.1 → c.Finds outer names.2 →
      ∀ es negations whole, es ≠ [] → List.Forall₂ c.Negates es negations →
        c.Negates (.call inner es) whole → (run whole).SameEffect (run (.call outer negations))) ∧
    ∀ site : String → CallSite, (∀ name ∈ ["all", "some", "none"], c.Finds (site name) name) →
      ∀ A p notP, c.Negates p notP →
        (∀ notSome, c.Negates (.call (site "some") [A, p]) notSome →
          (run (.call (site "none") [A, p])).SameEffect (run notSome)) ∧
        (run (.call (site "all") [A, p])).SameEffect (run (.call (site "none") [A, notP])) ∧
        ∀ notAll, c.Negates (.call (site "all") [A, p]) notAll →
          (run notAll).SameEffect (run (.call (site "some") [A, notP])) := by
  intro run
  have hnegated : ∀ {e negation}, c.Negates e negation → ∀ data, _ := fun h data =>
    Negates.sameEffect hfree h c.depth data
  refine ⟨fun names hnames inner outer hinner houter es negations whole hes hnegations hwhole => ?_,
    fun site hsite A p notP hnotP => ?_⟩
  · obtain ⟨decides, dual, hdecides, hdual, hne⟩ : ∃ decides dual,
        Builtin.Deciding names.1 decides ∧ Builtin.Deciding names.2 dual ∧ names.1 ≠ names.2 := by
      rcases List.mem_pair.mp hnames with rfl | rfl
      · exact ⟨_, _, .and, .or, by decide⟩
      · exact ⟨_, _, .or, .and, by decide⟩
    refine sameEffect_of_meaning ((hnegated hwhole data).trans ?_) host
    apply Expr.shortCircuit_dual hfree c.depth data
      (CallSite.found_eq_ok.mpr (hinner.shortCircuit_eq hdecides))
      (CallSite.found_eq_ok.mpr (houter.shortCircuit_eq hdual)) (hdecides.dual hdual hne) hes
    exact hnegations.imp fun e n h => (hnegated h data).symm
  · have hall : c.environment.operator (site "all") = .ok (.lazy Builtin.scopedAll) :=
      CallSite.found_eq_ok.mpr ((hsite "all" (by decide)).lazily_eq (by simp [Builtin.arrayFamily]))
    have hsome : c.environment.operator (site "some") = .ok (.lazy Builtin.scopedSome) :=
      CallSite.found_eq_ok.mpr ((hsite "some" (by decide)).lazily_eq (by simp [Builtin.arrayFamily]))
    have hnone : c.environment.operator (site "none") = .ok (.lazy Builtin.scopedNone) :=
      CallSite.found_eq_ok.mpr ((hsite "none" (by decide)).lazily_eq (by simp [Builtin.arrayFamily]))
    let search := Expr.search c.environment c.depth A p data
    refine ⟨fun notSome hnotSome => sameEffect_of_meaning ?_ host, sameEffect_of_meaning ?_ host,
      fun notAll hnotAll => sameEffect_of_meaning ?_ host⟩
    · calc
        SameEffect _ (search true >>= fun found => pure (.bool !found)) :=
          Expr.quantifier_sameEffect hfree _ _ hnone Builtin.loopsAs_scopedNone A p
        SameEffect _ (negated _) :=
          (Expr.negated_quantifier_sameEffect hfree _ _ hsome Builtin.loopsAs_scopedSome A p).symm
        SameEffect _ _ := (hnegated hnotSome data).symm
    · calc
        SameEffect _ (search false >>= fun found => pure (.bool !found)) :=
          Expr.quantifier_sameEffect hfree _ _ hall Builtin.loopsAs_scopedAll A p
        SameEffect _ _ := (Expr.quantifier_negation_sameEffect hfree _ _ hnone
          Builtin.loopsAs_scopedNone A (hnegated hnotP)).symm
    · calc
        SameEffect _ (negated _) := hnegated hnotAll data
        SameEffect _ (search false >>= fun found => pure (.bool !!found)) :=
          Expr.negated_quantifier_sameEffect hfree _ _ hall Builtin.loopsAs_scopedAll A p
        _ = search false >>= fun found => pure (.bool found) := by simp only [Bool.not_not]
        SameEffect _ _ := (Expr.quantifier_negation_sameEffect hfree _ _ hsome
          Builtin.loopsAs_scopedSome A (hnegated hnotP)).symm

theorem evaluate_dual_standard : ∃ c : Context Unit, c.maxDepth = none ∧
    ∀ (x y A p : Expr) (data : Value),
      let call name args := Expr.call (.named name) args
      let run e := (Expr.evaluate e data).run ⟨c, ()⟩
      (run (call "!" [call "and" [x, y]])).SameEffect
        (run (call "or" [call "!" [x], call "!" [y]])) ∧
      (run (call "all" [A, p])).SameEffect (run (call "none" [A, call "!" [p]])) := by
  refine ⟨standard none, rfl, fun x y A p data => ?_⟩
  have hnegates (e : Expr) : (standard none).Negates e (.call (.named "!") [e]) :=
    ⟨_, finds_standard "!" (by decide) none, rfl⟩
  have hdual := evaluate_dual (c := standard none) rfl data ()
  have hfound : ∀ name ∈ ["all", "some", "none"], (standard none).Finds (.named name) name := by
    intro name hname
    apply finds_standard name _ none
    revert name
    decide
  refine ⟨?_, (hdual.2 _ hfound A p _ (hnegates p)).2.1⟩
  exact hdual.1 ("and", "or") (by decide) _ _ (finds_standard "and" (by decide) none)
    (finds_standard "or" (by decide) none) [x, y] _ _ (by simp)
    (.cons (hnegates x) (.cons (hnegates y) .nil)) (hnegates _)

end Context

end JsonRules
