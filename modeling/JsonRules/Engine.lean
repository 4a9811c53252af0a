import JsonRules.Builtin.Catalogue
import JsonRules.Evaluate
import JsonRules.Rule.Compile

/-!
# Engines

An engine is a registry with a limit on nesting.  It compiles rules and evaluates them, as runs of the
host's state.  The standard engine has the built-in operators and no limit.
-/

namespace JsonRules

namespace Registry

variable {σ τ : Type}

/-- The rule compiled with the names that are known now; other names are looked up later. -/
def compiled (r : Registry σ) (rule : Value) : Except Error CompiledRule := do
  let root ← Expr.ofRule r.resolve? .root rule
  pure ⟨root, r.id⟩

def compile (r : Registry σ) (rule : Value) : Run τ (Except Error CompiledRule) :=
  match r.compiled rule with
  | .ok c => do
      Run.emit (.compiled c.root.nodeCount)
      pure (.ok c)
  | .error e => pure (.error e)

def evaluate (r : Registry σ) (rule : CompiledRule) (maxDepth : Option Nat) (data : Value) :
    Run σ (Except Error Value) := fun host =>
  let ran := (rule.root.evaluate data).run ⟨Context.new r rule maxDepth, host⟩
  ⟨ran.result, ran.events, ran.state.host⟩

def apply (r : Registry σ) (rule : Value) (maxDepth : Option Nat) (data : Value) :
    Run σ (Except Error Value) := do
  match ← r.compile rule with
  | .ok c => r.evaluate c maxDepth data
  | .error e => pure (.error e)

end Registry

structure Engine (σ : Type) where
  registry : Registry σ
  maxDepth : Option Nat

namespace Engine

variable {σ : Type}

def new (maxDepth : Option Nat) : StateM IdSupply (Engine σ) := do
  pure ⟨← Builtin.registry, maxDepth⟩

/-- An engine with the same operators and limit and a registry of its own. -/
def clone (engine : Engine σ) : StateM IdSupply (Engine σ) := do
  pure { engine with registry := ← engine.registry.clone }

def compile (engine : Engine σ) (rule : Value) : Run σ (Except Error CompiledRule) :=
  engine.registry.compile rule

def evaluate (engine : Engine σ) (rule : CompiledRule) (data : Value) :
    Run σ (Except Error Value) :=
  engine.registry.evaluate rule engine.maxDepth data

def apply (engine : Engine σ) (rule data : Value) : Run σ (Except Error Value) :=
  engine.registry.apply rule engine.maxDepth data

/-- Applies a rule to data, all of which are documents of a library, as the result is. -/
def applyDocument {ν : Type} (lib : Library ν) (engine : Engine σ) (rule data : Document ν) :
    Run σ (Except Error (Document ν)) := do
  let outcome ← engine.apply (rule.toValue lib.number) (data.toValue lib.number)
  pure (outcome.map (Value.toDocument lib))

def applyJson (engine : Engine σ) (rule data : Json) : Run σ (Except Error Json) :=
  engine.applyDocument Json.library rule data

/-- The engine that is there without being asked for, and the identities that are left. -/
def standardWithSupply : Engine σ × IdSupply := (new none).run .initial

def standard : Engine σ := standardWithSupply.1

end Engine

end JsonRules
