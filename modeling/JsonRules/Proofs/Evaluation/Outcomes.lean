import JsonRules.Proofs.Evaluation.Restored

/-!
# Outcomes one after the other

The outcomes of several evaluations in one context, each begun with the host as the one before it left
it.  A run that goes through them up to some point is known from the outcomes up to that point.
-/

namespace JsonRules

variable {σ α β ι : Type}

/-- The outcomes of all steps, taken in the context one after the other. -/
def Eval.outcomes (c : Context σ) : List (Eval σ Value) → (host : σ) → List (Except Error Value)
  | [], _ => []
  | step :: rest, host =>
      let ran := step.run ⟨c, host⟩
      ran.result :: outcomes c rest ran.state.host

theorem Eval.length_outcomes (c : Context σ) (steps : List (Eval σ Value)) (host : σ) :
    (outcomes c steps host).length = steps.length := by
  induction steps generalizing host with
  | nil => rfl
  | cons step rest ih => rw [outcomes, List.length_cons, List.length_cons, ih]

namespace Action

def outcomes : List (Action σ Value) → (host : σ) → List (Except Error Value)
  | [], _ => []
  | x :: rest, host =>
      let ran := x.run host
      ran.result :: outcomes rest ran.state

/-- Either all outcomes are values, or there is a first failure after some values. -/
theorem values_or_failure (outcomes : List (Except Error Value)) :
    (∃ values : List Value, outcomes = values.map .ok) ∨
      ∃ (values : List Value) (e : Error) (others : List (Except Error Value)),
        outcomes = values.map .ok ++ .error e :: others := by
  induction outcomes with
  | nil => exact .inl ⟨[], rfl⟩
  | cons outcome rest ih =>
      cases outcome with
      | error e => exact .inr ⟨[], e, rest, rfl⟩
      | ok v =>
          rcases ih with ⟨values, rfl⟩ | ⟨values, e, others, rfl⟩
          · exact .inl ⟨v :: values, rfl⟩
          · exact .inr ⟨v :: values, e, others, rfl⟩

variable {x : Action σ α} {host : σ}

theorem run_bind_of_ok {a : α} (h : (x.run host).result = .ok a) (next : α → Action σ β) :
    (x >>= next).run host =
      ⟨((next a).run (x.run host).state).result,
        (x.run host).events ++ ((next a).run (x.run host).state).events,
        ((next a).run (x.run host).state).state⟩ := by
  rw [ExceptT.run_bind, Run.bind_apply, h]

theorem run_bind_of_error {e : Error} (h : (x.run host).result = .error e)
    (next : α → Action σ β) :
    (x >>= next).run host = ⟨.error e, (x.run host).events, (x.run host).state⟩ := by
  rw [ExceptT.run_bind, Run.bind_apply, h]
  exact congrArg (Ran.mk _ · _) (List.append_nil _)

theorem result_bind_pure (x : Action σ α) (f : α → β) (host : σ) :
    ((x >>= fun a => pure (f a)).run host).result = (x.run host).result.map f := by
  cases h : (x.run host).result with
  | ok a => exact congrArg Ran.result (run_bind_of_ok h _)
  | error e => exact congrArg Ran.result (run_bind_of_error h _)

end Action

/-- In a context that the steps restore, their outcomes are those of the runs of the host. -/
theorem Eval.outcomes_map {c : Context σ} {step : ι → Eval σ Value} {run : ι → Action σ Value}
    (h : ∀ i, ActsAs c (step i).run (run i).run) (is : List ι) (host : σ) :
    outcomes c (is.map step) host = Action.outcomes (is.map run) host := by
  induction is generalizing host with
  | nil => rfl
  | cons i rest ih =>
      rw [List.map_cons, List.map_cons, outcomes, Action.outcomes, h i host]
      exact congrArg _ (ih _)

end JsonRules
