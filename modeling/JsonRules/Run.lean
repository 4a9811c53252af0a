import JsonRules.Event

/-!
# Runs

A run changes a state and records events on the way.  Operators, registrations and evaluations are all
runs, over different states.
-/

namespace JsonRules

/-- What a run leaves: its result, its events in order and the state at its end. -/
structure Ran (σ α : Type) where
  result : α
  events : List Event
  state : σ

/-- A run that gives an `α` and changes a `σ`. -/
def Run (σ α : Type) : Type := σ → Ran σ α

namespace Run

variable {σ α β : Type}

protected def pure (a : α) : Run σ α := fun s => ⟨a, [], s⟩

/-- The events of the first run come before those of the second. -/
protected def bind (run : Run σ α) (next : α → Run σ β) : Run σ β := fun s =>
  let first := run s
  let second := next first.result first.state
  ⟨second.result, first.events ++ second.events, second.state⟩

instance : Monad (Run σ) where
  pure := Run.pure
  bind := Run.bind

def emit (event : Event) : Run σ Unit := fun s => ⟨(), [event], s⟩

def get : Run σ σ := fun s => ⟨s, [], s⟩

def set (s : σ) : Run σ Unit := fun _ => ⟨(), [], s⟩

def modify (f : σ → σ) : Run σ Unit := fun s => ⟨(), [], f s⟩

theorem pure_apply (a : α) (s : σ) : (pure a : Run σ α) s = ⟨a, [], s⟩ := rfl

theorem bind_apply (run : Run σ α) (next : α → Run σ β) (s : σ) :
    (run >>= next) s =
      ⟨(next (run s).result (run s).state).result,
        (run s).events ++ (next (run s).result (run s).state).events,
        (next (run s).result (run s).state).state⟩ := rfl

instance : LawfulMonad (Run σ) :=
  LawfulMonad.mk' (Run σ)
    (fun run => by
      funext s
      change (⟨(run s).result, (run s).events ++ [], (run s).state⟩ : Ran σ _) = run s
      rw [List.append_nil])
    (fun _ _ => rfl)
    (fun run _ _ => by
      funext s
      simp only [bind_apply, List.append_assoc])

end Run

end JsonRules
