import JsonRules.Proofs.Evaluation.Related

/-!
# Evaluations that fail alike

Two runs are alike if they differ in nothing but what a function hides of their failures.  Operators
that go through with the failures of their operands cannot tell such runs apart, so a tree means alike
in environments that differ only in what is hidden of an operator not found.
-/

namespace JsonRules

variable {σ α β : Type} {f : Error → Error}

/-- The same outcome, state and events, apart from what `f` hides of a failure. -/
structure Ran.Alike (f : Error → Error) (ran other : Ran σ (Except Error α)) : Prop where
  result : ran.result.mapError f = other.result.mapError f
  events : ran.events = other.events
  state : ran.state = other.state

theorem cases_of_mapError_eq {x y : Except Error α} (h : x.mapError f = y.mapError f) :
    (∃ a, x = .ok a ∧ y = .ok a) ∨ ∃ d e, x = .error d ∧ y = .error e ∧ f d = f e := by
  cases x with
  | ok a =>
      cases y with
      | ok b => exact .inl ⟨a, rfl, congrArg Except.ok (Except.ok.inj h).symm⟩
      | error e => cases h
  | error d =>
      cases y with
      | ok b => cases h
      | error e => exact .inr ⟨d, e, rfl, rfl, Except.error.inj h⟩

namespace Action

def Alike (f : Error → Error) (x y : Action σ α) : Prop :=
  ∀ host, (x.run host).Alike f (y.run host)

theorem Alike.refl (x : Action σ α) : Alike f x x := fun _ => ⟨rfl, rfl, rfl⟩

theorem Alike.symm {x y : Action σ α} (h : Alike f x y) : Alike f y x :=
  fun host => ⟨(h host).result.symm, (h host).events.symm, (h host).state.symm⟩

theorem Alike.trans {x y z : Action σ α} (hxy : Alike f x y) (hyz : Alike f y z) : Alike f x z :=
  fun host =>
    ⟨(hxy host).result.trans (hyz host).result, (hxy host).events.trans (hyz host).events,
      (hxy host).state.trans (hyz host).state⟩

theorem Alike.throw {d e : Error} (h : f d = f e) :
    Alike f (throw d : Action σ α) (throw e) :=
  fun _ => ⟨congrArg Except.error h, rfl, rfl⟩

theorem Alike.bind {x y : Action σ α} {next after : α → Action σ β}
    (h : Alike f x y) (hnext : ∀ a, Alike f (next a) (after a)) :
    Alike f (x >>= next) (y >>= after) := by
  intro host
  obtain ⟨hresult, hevents, hstate⟩ := h host
  rw [ExceptT.run_bind, ExceptT.run_bind, Run.bind_apply, Run.bind_apply, hevents, hstate]
  rcases cases_of_mapError_eq hresult with ⟨a, hx, hy⟩ | ⟨d, e, hx, hy, hde⟩
  · rw [hx, hy]
    obtain ⟨hresult', hevents', hstate'⟩ := hnext a (y.run host).state
    exact ⟨hresult', congrArg (_ ++ ·) hevents', hstate'⟩
  · rw [hx, hy]
    exact ⟨congrArg Except.error hde, rfl, rfl⟩

theorem sequential_alike (f : Error → Error) :
    Sequential (fun _ => True) (fun {α : Type} (x y : Action σ α) => Alike f x y) :=
  ⟨fun _ => Alike.refl _, fun h hnext => h.bind hnext⟩

end Action

namespace Environment

variable {env other : Environment σ}

/-- The environments differ in nothing but what `f` hides of an operator not found. -/
structure Alike (f : Error → Error) (env other : Environment σ) : Prop where
  operator : ∀ site, (env.operator site).mapError f = (other.operator site).mapError f
  isRegistered : env.isRegistered = other.isRegistered
  maxDepth : env.maxDepth = other.maxDepth

end Environment

/-- With operators that go through with failures, what is hidden of a failure stays hidden. -/
theorem Expr.meaning_alike {env other : Environment σ} (henv : env.Alike f other)
    {P : Error → Prop}
    (hfast : ∀ site operator, env.operator site = .ok operator → operator.FailsFast P)
    (e : Expr) (depth : Nat) (data : Value) :
    Action.Alike f (e.meaning env depth data) (e.meaning other depth data) := by
  have hmatches : env.Matches (fun _ => True) other :=
    ⟨henv.isRegistered, henv.maxDepth, fun _ _ => trivial⟩
  refine Expr.meaning_related (Action.sequential_alike f) hmatches (fun site _ => ?_) depth data
  rcases cases_of_mapError_eq (henv.operator site) with ⟨operator, hx, hy⟩ | ⟨d, e, hx, hy, hde⟩
  · exact .found hx hy ((hfast site operator hx).mono fun _ _ => trivial)
  · exact .missing hx hy (Action.Alike.throw hde)

end JsonRules
