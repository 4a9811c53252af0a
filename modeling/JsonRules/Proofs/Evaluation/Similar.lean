import JsonRules.Proofs.Evaluation.Answer
import JsonRules.Proofs.Evaluation.Normalized
import JsonRules.Proofs.Evaluation.Visit
import JsonRules.Proofs.Operator.Similar
import JsonRules.Proofs.Rule.Similar

/-!
# The order of members

Similar rules evaluate in a similar way on similar data.  Runs in step with each other pass similar
values on, so every built-in operator has to keep them in step, and then whole trees do.  The order of
members shows in the texts that are logged, and in the text of an operand that `substr` refuses.
-/

namespace JsonRules

variable {σ α β γ δ : Type}

/-- The same event, apart from the text of a value that is logged. -/
inductive Event.Similar : Event → Event → Prop
  | refl (event : Event) : Similar event event
  | logged {v w : Value} (h : v.Similar w) : Similar (.logged v.jsonText) (.logged w.jsonText)

/-- Results related by `R` or similar failures, after similar events and with the same state. -/
structure Ran.Similar (R : α → β → Prop) (ran : Ran σ (Except Error α))
    (other : Ran σ (Except Error β)) : Prop where
  result : SimilarOutcomes R ran.result other.result
  events : List.Forall₂ Event.Similar ran.events other.events
  state : ran.state = other.state

theorem Ran.Similar.calls_eq {R : α → β → Prop} {ran : Ran σ (Except Error α)}
    {other : Ran σ (Except Error β)} (h : ran.Similar R other) : ran.calls = other.calls := by
  have hsame : List.Forall₂ Eq ran.calls other.calls := by
    refine List.rel_filterMap (fun event partner hevent => ?_) h.events
    cases hevent with
    | refl =>
        cases event.applied? with
        | none => exact .none
        | some call => exact .some rfl
    | logged => exact .none
  rwa [List.forall₂_eq_eq_eq] at hsame

namespace Action

/-- From any state on, the runs end alike after similar events. -/
def Similar (R : α → β → Prop) (x : Action σ α) (y : Action σ β) : Prop :=
  ∀ host, (x.run host).Similar R (y.run host)

namespace Similar

variable {R : α → β → Prop} {S : γ → δ → Prop}

theorem ofOutcome {x : Except Error α} {y : Except Error β} (h : SimilarOutcomes R x y) :
    Similar R (ExceptT.mk (Pure.pure x) : Action σ α) (ExceptT.mk (Pure.pure y)) :=
  fun _ => ⟨h, .nil, rfl⟩

theorem pure {a : α} {b : β} (h : R a b) :
    Similar R (Pure.pure a : Action σ α) (Pure.pure b) := ofOutcome (.ok h)

theorem throw (e : Error) : Similar R (throw e : Action σ α) (throw e) :=
  ofOutcome (.error (.refl e))

theorem emit {event other : Event} (h : event.Similar other) :
    Similar Eq (ExceptT.lift (Run.emit event) : Action σ Unit) (ExceptT.lift (Run.emit other)) :=
  fun _ => ⟨.ok rfl, .cons h .nil, rfl⟩

theorem bind {x : Action σ α} {y : Action σ β} {next : α → Action σ γ} {after : β → Action σ δ}
    (h : Similar R x y) (hnext : ∀ a b, R a b → Similar S (next a) (after b)) :
    Similar S (x >>= next) (y >>= after) := by
  intro host
  rw [ExceptT.run_bind, ExceptT.run_bind, Run.bind_apply, Run.bind_apply]
  obtain ⟨hresult, hevents, hstate⟩ := h host
  rw [← hstate]
  generalize (x.run host).result = outcome, (y.run host).result = partner at hresult
  cases hresult with
  | ok hab =>
      obtain ⟨hresult', hevents', hstate'⟩ := hnext _ _ hab (x.run host).state
      exact ⟨hresult', List.rel_append hevents hevents', hstate'⟩
  | error he => exact ⟨.error he, List.rel_append hevents .nil, rfl⟩

end Similar

end Action

open JsonRules.Action JsonRules.Environment

abbrev SimilarOperands :
    List (Value → Action σ Value) → List (Value → Action σ Value) → Prop :=
  List.Forall₂ fun x y => ∀ d₁ d₂ : Value, d₁.Similar d₂ → Similar Value.Similar (x d₁) (y d₂)

/-- With similar operands and similar data the operator runs in a similar way. -/
def Operator.IgnoresOrder (operator : Operator σ) : Prop :=
  ∀ (env : Environment σ) (args others : List Expr) (operands partners : List (Value → Action σ Value))
    (d₁ d₂ : Value), args.length = others.length → SimilarOperands operands partners →
    d₁.Similar d₂ →
    Similar Value.Similar (env.run args operands d₁ operator) (env.run others partners d₂ operator)

section Operands

variable {env : Environment σ} {args others : List Expr}
  {operands partners : List (Value → Action σ Value)} {d₁ d₂ : Value}
  (h : SimilarOperands operands partners)

include h

theorem Environment.values_similar (hdata : d₁.Similar d₂) :
    Similar (List.Forall₂ Value.Similar) (values operands d₁) (values partners d₂) := by
  induction h with
  | nil => exact .pure .nil
  | cons hxy _ ih =>
      rw [values_cons, values_cons]
      exact (hxy d₁ d₂ hdata).bind fun v w hvw => ih.bind fun vs ws hvs => .pure (.cons hvw hvs)

theorem Environment.operand_similar (i : Nat) (hdata : d₁.Similar d₂) :
    Similar Value.Similar (operand operands i d₁) (operand partners i d₂) := by
  rw [operand_eq_getD, operand_eq_getD]
  exact rel_getD (rel_getElem? h i) (fun _ _ _ => .pure (.refl .null)) d₁ d₂ hdata

namespace Builtin

/-! ### Short-circuit operators -/

theorem similar_firstDeciding {decides : Value → Bool}
    (hdecides : ∀ {v w : Value}, v.Similar w → decides v = decides w) (hdata : d₁.Similar d₂)
    {last latest : Value} (hlast : last.Similar latest) (positions : List Nat) :
    Similar Value.Similar (env.answer args operands (firstDeciding decides d₁ last positions))
      (env.answer others partners (firstDeciding decides d₂ latest positions)) := by
  induction positions generalizing last latest with
  | nil => exact .pure hlast
  | cons i rest ih =>
      simp only [firstDeciding, answer_bind, answer_evaluate]
      refine (operand_similar h i hdata).bind fun v w hvw => ?_
      rw [hdecides hvw]
      split
      · exact .pure hvw
      · exact ih hvw

theorem similar_branches (hdata : d₁.Similar d₂) (positions : List Nat) :
    Similar Value.Similar (env.answer args operands (branches d₁ positions))
      (env.answer others partners (branches d₂ positions)) := by
  fun_induction branches d₁ positions with
  | case1 condition branch rest ih =>
      simp only [branches, answer_bind, answer_evaluate]
      refine (operand_similar h condition hdata).bind fun v w hvw => ?_
      rw [hvw.truthy_eq]
      split
      · simp only [answer_evaluate]
        exact operand_similar h branch hdata
      · exact ih
  | case2 default =>
      simp only [branches, answer_evaluate]
      exact operand_similar h default hdata
  | case3 => exact .pure (.refl .null)

/-! ### Scoped operators -/

theorem similar_source (hdata : d₁.Similar d₂) :
    Similar (List.Forall₂ Value.Similar) (env.answer args operands (source d₁))
      (env.answer others partners (source d₂)) := by
  simp only [source, answer_bind, answer_evaluate, answer_pure]
  refine (operand_similar h 0 hdata).bind fun v w hvw => .pure ?_
  cases hvw.parts with
  | array hitems => exact hitems
  | _ => exact .nil

theorem similar_body {v w : Value} (hvw : v.Similar w) :
    Similar Value.Similar (env.answer args operands (body v))
      (env.answer others partners (body w)) := by
  simp only [body, answer_evaluate]
  exact operand_similar h 1 hvw

variable {vs ws : List Value} (helements : List.Forall₂ Value.Similar vs ws)

include helements

theorem similar_mapElements :
    Similar (List.Forall₂ Value.Similar) (env.answer args operands (mapElements vs))
      (env.answer others partners (mapElements ws)) := by
  induction helements with
  | nil => exact .pure .nil
  | cons hvw _ ih =>
      simp only [mapElements, answer_bind, answer_pure]
      exact (similar_body h hvw).bind fun _ _ hv => ih.bind fun _ _ hvs => .pure (.cons hv hvs)

theorem similar_filterElements :
    Similar (List.Forall₂ Value.Similar) (env.answer args operands (filterElements vs))
      (env.answer others partners (filterElements ws)) := by
  induction helements with
  | nil => exact .pure .nil
  | cons hvw _ ih =>
      simp only [filterElements, answer_bind, answer_pure]
      refine (similar_body h hvw).bind fun x y hxy => ih.bind fun kept others hkept => .pure ?_
      rw [hxy.truthy_eq]
      split
      · exact .cons hvw hkept
      · exact hkept

theorem similar_reduceElements {accumulator other : Value}
    (haccumulator : accumulator.Similar other) :
    Similar Value.Similar (env.answer args operands (reduceElements accumulator vs))
      (env.answer others partners (reduceElements other ws)) := by
  induction helements generalizing accumulator other with
  | nil => exact .pure haccumulator
  | cons hvw _ ih =>
      simp only [reduceElements, answer_bind]
      exact (similar_body h (reduction_similar hvw haccumulator)).bind fun _ _ hv => ih hv

theorem similar_anyElement (wanted : Bool) :
    Similar Eq (env.answer args operands (anyElement wanted vs))
      (env.answer others partners (anyElement wanted ws)) := by
  induction helements with
  | nil => exact .pure rfl
  | cons hvw _ ih =>
      simp only [anyElement, answer_bind]
      refine (similar_body h hvw).bind fun x y hxy => ?_
      rw [hxy.truthy_eq]
      split
      · exact .pure rfl
      · exact ih

end Builtin

end Operands

namespace Builtin

/-! ### The catalogue -/

variable {name : String}

theorem ignoresOrder_reading {f : List Value → Value → Except Error Value}
    (hf : ∀ {vs ws : List Value} {d₁ d₂ : Value}, List.Forall₂ Value.Similar vs ws →
      d₁.Similar d₂ → SimilarOutcomes Value.Similar (f vs d₁) (f ws d₂)) :
    (reading name f : Definition σ).operator.IgnoresOrder := by
  intro env args others operands partners d₁ d₂ _ h hdata
  exact (values_similar h hdata).bind fun vs ws hvs => .ofOutcome (hf hvs hdata)

theorem ignoresOrder_total {f : List Value → Value}
    (hf : ∀ {vs ws : List Value}, List.Forall₂ Value.Similar vs ws → (f vs).Similar (f ws)) :
    (total name f : Definition σ).operator.IgnoresOrder :=
  ignoresOrder_reading fun hvs _ => .ok (hf hvs)

theorem ignoresOrder_test {f : List Value → Bool}
    (hf : ∀ {vs ws : List Value}, List.Forall₂ Value.Similar vs ws → f vs = f ws) :
    (test name f : Definition σ).operator.IgnoresOrder :=
  ignoresOrder_total fun hvs => hf hvs ▸ .refl (.bool _)

theorem ignoresOrder_numeric {f : List Value → Number}
    (hf : ∀ {vs ws : List Value}, List.Forall₂ Value.Similar vs ws → f vs = f ws) :
    (numeric name f : Definition σ).operator.IgnoresOrder :=
  ignoresOrder_total fun hvs => hf hvs ▸ .refl (.number _)

theorem ignoresOrder_shortCircuit {decides : Value → Bool}
    (hdecides : ∀ {v w : Value}, v.Similar w → decides v = decides w) :
    (lazily name [] (shortCircuit name decides) : Definition σ).operator.IgnoresOrder := by
  intro env args others operands partners d₁ d₂ hlength h hdata
  simp only [lazily, run_lazy, shortCircuit, hlength]
  split
  · exact .throw _
  · exact similar_firstDeciding h hdecides hdata (.refl .null) _

theorem ignoresOrder_scoped {rest : List Value → LazyScript σ Value}
    (hrest : ∀ {env : Environment σ} {args others : List Expr}
      {operands partners : List (Value → Action σ Value)} {vs ws : List Value},
      SimilarOperands operands partners → List.Forall₂ Value.Similar vs ws →
      Similar Value.Similar (env.answer args operands (rest vs))
        (env.answer others partners (rest ws))) :
    (lazily name [] fun _ data => source data >>= rest : Definition σ).operator.IgnoresOrder := by
  intro env args others operands partners d₁ d₂ _ h hdata
  simp only [lazily, run_lazy, answer_bind]
  exact (similar_source h hdata).bind fun vs ws hvs => hrest h hvs

theorem ignoresOrder_anyElement (wanted : Bool) (verdict : Bool → Bool) :
    (lazily name [] fun _ data => source data >>= fun elements =>
      anyElement wanted elements >>= fun found => pure (.bool (verdict found)) :
        Definition σ).operator.IgnoresOrder := by
  refine ignoresOrder_scoped fun h hvs => ?_
  simp only [answer_bind, answer_pure]
  refine (similar_anyElement h hvs wanted).bind fun found _ hfound => .pure ?_
  rw [hfound]
  exact .refl (.bool _)

theorem ignoresOrder_inputFamily {d : Definition σ} (hd : d ∈ inputFamily) :
    d.operator.IgnoresOrder := by
  simp only [inputFamily, List.mem_cons, List.not_mem_nil, or_false] at hd
  rcases hd with rfl | rfl | rfl
  · exact ignoresOrder_reading fun hvs hdata => var_similar hvs hdata
  · exact ignoresOrder_reading fun hvs hdata => missing_similar hvs hdata
  · exact ignoresOrder_reading fun hvs hdata => missingSome_similar hvs hdata

theorem ignoresOrder_logicalFamily {d : Definition σ} (hd : d ∈ logicalFamily) :
    d.operator.IgnoresOrder := by
  simp only [logicalFamily, List.mem_cons, List.not_mem_nil, or_false] at hd
  rcases hd with rfl | rfl | rfl | rfl
  · exact ignoresOrder_shortCircuit fun h => congrArg _ h.truthy_eq
  · exact ignoresOrder_shortCircuit Value.Similar.truthy_eq
  · exact ignoresOrder_test fun hvs => congrArg not (isTrue_eq hvs)
  · exact ignoresOrder_test fun hvs => isTrue_eq hvs

theorem ignoresOrder_branchingFamily {d : Definition σ} (hd : d ∈ branchingFamily) :
    d.operator.IgnoresOrder := by
  rw [List.mem_singleton.mp hd]
  intro env args others operands partners d₁ d₂ hlength h hdata
  simp only [lazily, run_lazy, conditional, hlength]
  exact similar_branches h hdata _

theorem ignoresOrder_comparisonFamily {d : Definition σ} (hd : d ∈ comparisonFamily) :
    d.operator.IgnoresOrder := by
  simp only [comparisonFamily, List.mem_cons, List.not_mem_nil, or_false] at hd
  rcases hd with rfl | rfl | rfl | rfl | rfl | rfl | rfl | rfl
  · exact ignoresOrder_test fun hvs => related_eq hvs Value.Similar.looseEq_eq
  · exact ignoresOrder_test fun hvs => congrArg not (related_eq hvs Value.Similar.looseEq_eq)
  · exact ignoresOrder_test fun hvs => related_eq hvs Value.Similar.strictEq_eq
  · exact ignoresOrder_test fun hvs => congrArg not (related_eq hvs Value.Similar.strictEq_eq)
  · exact ignoresOrder_test fun hvs => related_eq hvs fun h h' => by
      rw [Value.gt, Value.gt, h.compare?_eq h']
  · exact ignoresOrder_test fun hvs => related_eq hvs fun h h' => by
      rw [Value.ge, Value.ge, h.compare?_eq h']
  · exact ignoresOrder_test fun hvs => chained_eq hvs fun h h' => by
      rw [Value.lt, Value.lt, h.compare?_eq h']
  · exact ignoresOrder_test fun hvs => chained_eq hvs fun h h' => by
      rw [Value.le, Value.le, h.compare?_eq h']

theorem ignoresOrder_arithmeticFamily {d : Definition σ} (hd : d ∈ arithmeticFamily) :
    d.operator.IgnoresOrder := by
  simp only [arithmeticFamily, List.mem_cons, List.not_mem_nil, or_false] at hd
  rcases hd with rfl | rfl | rfl | rfl | rfl | rfl | rfl
  · exact ignoresOrder_numeric fun hvs => by rw [add, add, map_toNumber_eq hvs]
  · exact ignoresOrder_numeric fun hvs => subtract_eq hvs
  · exact ignoresOrder_numeric fun hvs => multiply_eq hvs
  · exact ignoresOrder_numeric fun hvs => by
      rw [divide, divide, numberArgument_eq hvs, numberArgument_eq hvs]
  · exact ignoresOrder_numeric fun hvs => by
      rw [remainder, remainder, numberArgument_eq hvs, numberArgument_eq hvs]
  · exact ignoresOrder_numeric fun hvs => by rw [minimum, minimum, map_toNumber_eq hvs]
  · exact ignoresOrder_numeric fun hvs => by rw [maximum, maximum, map_toNumber_eq hvs]

theorem ignoresOrder_stringFamily {d : Definition σ} (hd : d ∈ stringFamily) :
    d.operator.IgnoresOrder := by
  simp only [stringFamily, List.mem_cons, List.not_mem_nil, or_false] at hd
  rcases hd with rfl | rfl
  · exact ignoresOrder_total fun hvs => cat_eq hvs ▸ .refl (.string _)
  · refine ignoresOrder_reading fun hvs _ => (substr?_similar hvs).bind fun part _ hpart => .ok ?_
    rw [hpart]
    exact .refl (.string _)

theorem ignoresOrder_arrayFamily {d : Definition σ} (hd : d ∈ arrayFamily) :
    d.operator.IgnoresOrder := by
  simp only [arrayFamily, List.mem_cons, List.not_mem_nil, or_false] at hd
  rcases hd with rfl | rfl | rfl | rfl | rfl | rfl | rfl | rfl
  · exact ignoresOrder_total fun hvs => .array (merge_similar hvs)
  · exact ignoresOrder_test fun hvs => isIn_eq hvs
  · refine ignoresOrder_scoped fun h hvs => ?_
    simp only [answer_bind, answer_pure]
    exact (similar_mapElements h hvs).bind fun _ _ hvalues => .pure (.array hvalues)
  · refine ignoresOrder_scoped fun h hvs => ?_
    simp only [answer_bind, answer_pure]
    exact (similar_filterElements h hvs).bind fun _ _ hkept => .pure (.array hkept)
  · intro env args others operands partners d₁ d₂ _ h hdata
    simp only [lazily, run_lazy, scopedReduce, answer_bind, answer_evaluate]
    exact (similar_source h hdata).bind fun _ _ hvs =>
      (operand_similar h 2 hdata).bind fun _ _ hinitial => similar_reduceElements h hvs hinitial
  · exact ignoresOrder_anyElement false not
  · exact ignoresOrder_anyElement true id
  · exact ignoresOrder_anyElement true not

theorem ignoresOrder_miscFamily {d : Definition σ} (hd : d ∈ miscFamily) :
    d.operator.IgnoresOrder := by
  rw [List.mem_singleton.mp hd]
  intro env args others operands partners d₁ d₂ _ h hdata
  refine (values_similar h hdata).bind fun vs ws hvs host => ?_
  have hv := argument_similar hvs 0
  exact ⟨.ok hv, .cons (.logged hv) .nil, rfl⟩

/-- No built-in operator can tell values apart that differ only in the order of members. -/
theorem ignoresOrder_of_mem_definitions {d : Definition σ} (hd : d ∈ definitions) :
    d.operator.IgnoresOrder := by
  simp only [definitions, List.mem_append] at hd
  rcases hd with ((((((hd | hd) | hd) | hd) | hd) | hd) | hd) | hd
  · exact ignoresOrder_inputFamily hd
  · exact ignoresOrder_logicalFamily hd
  · exact ignoresOrder_branchingFamily hd
  · exact ignoresOrder_comparisonFamily hd
  · exact ignoresOrder_arithmeticFamily hd
  · exact ignoresOrder_stringFamily hd
  · exact ignoresOrder_arrayFamily hd
  · exact ignoresOrder_miscFamily hd

end Builtin

end JsonRules
