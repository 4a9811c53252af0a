import JsonRules.Proofs.Evaluation.Call
import JsonRules.Proofs.Evaluation.Outcomes

/-!
# Loops over elements

The scoped operators go through their elements in one of three ways: they collect what each element
adds, fold over the elements, or stop at the first one for which the body has the truth that is wanted.
The first and the last are known from the outcomes of the body alone.
-/

namespace JsonRules

variable {σ : Type}

namespace Action

/-- All that the elements add, where `part` says what one of them adds for its value. -/
def collect (part : (element value : Value) → List Value) (body : Value → Action σ Value) :
    List Value → Action σ (List Value)
  | [] => pure []
  | element :: rest => do
      let v ← body element
      let parts ← collect part body rest
      pure (part element v ++ parts)

/-- Whether some element has a value of the truth `wanted`; later ones are left alone. -/
def anyTruth (wanted : Bool) (body : Value → Action σ Value) : List Value → Action σ Bool
  | [] => pure false
  | element :: rest => do
      let v ← body element
      if v.truthy = wanted then pure true else anyTruth wanted body rest

variable {body : Value → Action σ Value} {elements values : List Value} {host : σ} {e : Error}
  {others : List (Except Error Value)}

theorem collect_of_values (part : Value → Value → List Value)
    (h : outcomes (elements.map body) host = values.map .ok) :
    ((collect part body elements).run host).result =
      .ok ((elements.zip values).flatMap fun p => part p.1 p.2) := by
  induction elements generalizing values host with
  | nil => rfl
  | cons element rest ih =>
      cases values with
      | nil => cases h
      | cons v values =>
          obtain ⟨hv, hrest⟩ := List.cons.inj h
          rw [collect, run_bind_of_ok hv, run_bind_of_ok (ih hrest)]
          rfl

theorem collect_of_failure (part : Value → Value → List Value)
    (h : outcomes (elements.map body) host = values.map .ok ++ .error e :: others) :
    ((collect part body elements).run host).result = .error e := by
  induction elements generalizing values host with
  | nil => simp [outcomes] at h
  | cons element rest ih =>
      cases values with
      | nil =>
          obtain ⟨he, _⟩ := List.cons.inj h
          rw [collect, run_bind_of_error he]
      | cons v values =>
          obtain ⟨hv, hrest⟩ := List.cons.inj h
          rw [collect, run_bind_of_ok hv, run_bind_of_error (ih hrest)]

theorem anyTruth_of_values (wanted : Bool)
    (h : outcomes (elements.map body) host = values.map .ok) :
    ((anyTruth wanted body elements).run host).result =
      .ok (values.any fun v => v.truthy == wanted) := by
  induction elements generalizing values host with
  | nil =>
      cases values with
      | nil => rfl
      | cons v values => cases h
  | cons element rest ih =>
      cases values with
      | nil => cases h
      | cons v values =>
          obtain ⟨hv, hrest⟩ := List.cons.inj h
          rw [anyTruth, run_bind_of_ok hv, List.any_cons]
          by_cases htruth : v.truthy = wanted
          · rw [if_pos htruth, beq_iff_eq.mpr htruth]
            rfl
          · rw [if_neg htruth, beq_eq_false_iff_ne.mpr htruth, Bool.false_or]
            exact ih hrest

/-- An element that decides hides the failure of a later one. -/
theorem anyTruth_of_failure (wanted : Bool)
    (h : outcomes (elements.map body) host = values.map .ok ++ .error e :: others) :
    ((anyTruth wanted body elements).run host).result =
      if values.any fun v => v.truthy == wanted then .ok true else .error e := by
  induction elements generalizing values host with
  | nil => simp [outcomes] at h
  | cons element rest ih =>
      cases values with
      | nil =>
          obtain ⟨he, _⟩ := List.cons.inj h
          rw [anyTruth, run_bind_of_error he]
          rfl
      | cons v values =>
          obtain ⟨hv, hrest⟩ := List.cons.inj h
          rw [anyTruth, run_bind_of_ok hv, List.any_cons]
          by_cases htruth : v.truthy = wanted
          · rw [if_pos htruth, beq_iff_eq.mpr htruth]
            rfl
          · rw [if_neg htruth, beq_eq_false_iff_ne.mpr htruth, Bool.false_or]
            exact ih hrest

end Action

open JsonRules.Action JsonRules.Environment

namespace Builtin

/-- What an element adds to the result of `map`. -/
def mapped (_element value : Value) : List Value := [value]

/-- What an element adds to the result of `filter`. -/
def kept (element value : Value) : List Value := if value.truthy then [element] else []

theorem flatMap_mapped {elements values : List Value} (h : values.length = elements.length) :
    ((elements.zip values).flatMap fun p => mapped p.1 p.2) = values := by
  simp only [mapped, ← List.map_eq_flatMap]
  exact List.map_snd_zip (Nat.le_of_eq h)

theorem flatMap_kept (pairs : List (Value × Value)) :
    (pairs.flatMap fun p => kept p.1 p.2) = (pairs.filter fun p => p.2.truthy).map Prod.fst := by
  induction pairs with
  | nil => rfl
  | cons p rest ih =>
      rw [List.flatMap_cons, ih, List.filter_cons, kept]
      split
      · rfl
      · rfl

section Answers

variable {env : Environment σ} {args : List Expr} {operands : List (Value → Action σ Value)}

@[simp] theorem answer_mapElements (elements : List Value) :
    env.answer args operands (mapElements elements) =
      collect mapped (operand operands 1) elements := by
  induction elements with
  | nil => rfl
  | cons element rest ih =>
      simp only [mapElements, body, answer_bind, answer_evaluate, answer_pure, ih, collect]
      rfl

@[simp] theorem answer_filterElements (elements : List Value) :
    env.answer args operands (filterElements elements) =
      collect kept (operand operands 1) elements := by
  induction elements with
  | nil => rfl
  | cons element rest ih =>
      simp only [filterElements, body, answer_bind, answer_evaluate, answer_pure, ih, collect]
      refine bind_congr fun v => bind_congr fun parts => ?_
      rw [kept]
      split
      · rfl
      · rfl

@[simp] theorem answer_reduceElements (accumulator : Value) (elements : List Value) :
    env.answer args operands (reduceElements accumulator elements) =
      elements.foldlM (fun acc element => operand operands 1 (reduction element acc))
        accumulator := by
  induction elements generalizing accumulator with
  | nil => rfl
  | cons element rest ih =>
      simp only [reduceElements, body, answer_bind, answer_evaluate, ih, List.foldlM_cons]

@[simp] theorem answer_anyElement (wanted : Bool) (elements : List Value) :
    env.answer args operands (anyElement wanted elements) =
      anyTruth wanted (operand operands 1) elements := by
  induction elements with
  | nil => rfl
  | cons element rest ih =>
      simp only [anyElement, body, answer_bind, answer_evaluate, anyTruth]
      refine bind_congr fun v => ?_
      split
      · rfl
      · exact ih

@[simp] theorem answer_source (data : Value) :
    env.answer args operands (source data) =
      operand operands 0 data >>= fun v => pure (v.asArray?.getD []) := by
  simp only [source, answer_bind, answer_evaluate, answer_pure]

end Answers

end Builtin

/-- The operator evaluates its source, and then the body against the elements as the loop says. -/
def Operator.LoopsAs {α : Type} (loop : (Value → Action σ Value) → List Value → Action σ α)
    (post : α → Value) (operator : Operator σ) : Prop :=
  ∀ (env : Environment σ) (args : List Expr) (operands : List (Value → Action σ Value))
    (data : Value),
    env.run args operands data operator = do
      let v ← operand operands 0 data
      let a ← loop (operand operands 1) (v.asArray?.getD [])
      pure (post a)

theorem Operator.LoopsAs.of_script {α : Type} {script : List Value → LazyScript σ α}
    {loop : (Value → Action σ Value) → List Value → Action σ α} (post : α → Value)
    (h : ∀ (env : Environment σ) (args : List Expr) (operands : List (Value → Action σ Value))
      (elements : List Value),
      env.answer args operands (script elements) = loop (operand operands 1) elements) :
    (Operator.lazy fun _ data => do
      let elements ← Builtin.source data
      let a ← script elements
      pure (post a)).LoopsAs loop post := by
  intro env args operands data
  simp only [run_lazy, answer_bind, Builtin.answer_source, h, answer_pure, bind_assoc, pure_bind]

namespace Builtin

theorem loopsAs_scopedMap : (.lazy scopedMap : Operator σ).LoopsAs (collect mapped) .array :=
  .of_script _ fun _ _ _ => answer_mapElements

theorem loopsAs_scopedFilter : (.lazy scopedFilter : Operator σ).LoopsAs (collect kept) .array :=
  .of_script _ fun _ _ _ => answer_filterElements

theorem loopsAs_scopedSome : (.lazy scopedSome : Operator σ).LoopsAs (anyTruth true) .bool :=
  .of_script _ fun _ _ _ => answer_anyElement true

theorem loopsAs_scopedNone :
    (.lazy scopedNone : Operator σ).LoopsAs (anyTruth true) (.bool !·) :=
  .of_script _ fun _ _ _ => answer_anyElement true

theorem loopsAs_scopedAll :
    (.lazy scopedAll : Operator σ).LoopsAs (anyTruth false) (.bool !·) :=
  .of_script _ fun _ _ _ => answer_anyElement false

end Builtin

end JsonRules
