import JsonRules.Evaluate
import JsonRules.Proofs.Rule.Tree

/-!
# Evaluation in an environment

What a tree means apart from any context that is changed on the way: the operators of its calls, the
registered names and the limit are given by an environment, and the depth is handed down.  The meaning
of a tree is then a run of the host alone.  It serves as the reference for the evaluation that keeps
its depth in a context.
-/

namespace JsonRules

abbrev Action (σ α : Type) : Type := ExceptT Error (Run σ) α

structure Environment (σ : Type) where
  /-- The operator of a call, or the failure of looking for it. -/
  operator : CallSite → Except Error (Operator σ)
  isRegistered : String → Bool
  maxDepth : Option Nat

def CallSite.unknown (site : CallSite) : Error := .unknownOperator site.name site.path.text

def CallSite.found {σ : Type} (site : CallSite) : Option (Operator σ) → Except Error (Operator σ)
  | some operator => .ok operator
  | none => .error site.unknown

theorem CallSite.found_eq_ok {σ : Type} {site : CallSite} {found : Option (Operator σ)}
    {operator : Operator σ} : site.found found = .ok operator ↔ found = some operator := by
  cases found with
  | none => simp [CallSite.found]
  | some other => simp [CallSite.found]

theorem CallSite.found_eq_error {σ : Type} {site : CallSite} {found : Option (Operator σ)}
    {e : Error} : site.found found = .error e ↔ found = none ∧ site.unknown = e := by
  cases found with
  | none => simp [CallSite.found]
  | some operator => simp [CallSite.found]

namespace Environment

variable {σ α : Type}

def nested (env : Environment σ) (depth : Nat) (step : Action σ α) : Action σ α :=
  match env.maxDepth.filter (· < depth) with
  | some limit => throw (.depthLimitExceeded limit)
  | none => step

def operand (operands : List (Value → Action σ Value)) (i : Nat) (data : Value) :
    Action σ Value :=
  match operands[i]? with
  | some operand => operand data
  | none => pure .null

def script (env : Environment σ) (args : List Expr) (operands : List (Value → Action σ Value)) :
    Script σ α → Run σ α
  | .done a => pure a
  | .evaluate i data next => do
      let outcome ← (operand operands i data).run
      env.script args operands (next outcome)
  | .quote i next => env.script args operands (next ((args[i]?.map Expr.toRule).getD .null))
  | .isRegistered name next => env.script args operands (next (env.isRegistered name))
  | .perform action next => do
      action
      let s ← Run.get
      env.script args operands (next s)

def values (operands : List (Value → Action σ Value)) (data : Value) : Action σ (List Value) :=
  operands.mapM fun operand => operand data

def run (env : Environment σ) (args : List Expr) (operands : List (Value → Action σ Value))
    (data : Value) : Operator σ → Action σ Value
  | .eager f => do
      let args ← values operands data
      ExceptT.mk (f args data)
  | .lazy f => ExceptT.mk (env.script args operands (f args.length data).run)

def apply (env : Environment σ) (site : CallSite) (args : List Expr)
    (operands : List (Value → Action σ Value)) (data : Value) : Action σ Value :=
  match env.operator site with
  | .error e => throw e
  | .ok operator => do
      ExceptT.lift (Run.emit (.applied site.name args.length))
      env.run args operands data operator

end Environment

namespace Expr

variable {σ : Type}

mutual

/-- The value of a tree against data, as a run of the host. -/
def meaning (env : Environment σ) : Expr → (depth : Nat) → (data : Value) → Action σ Value
  | literal v => fun _ _ => pure v
  | array items => fun depth data =>
      env.nested (depth + 1)
        (Value.array <$> Environment.values (meanings env items (depth + 1)) data)
  | call site args => fun depth data =>
      env.nested (depth + 1) (env.apply site args (meanings env args (depth + 1)) data)
termination_by structural e => e

def meanings (env : Environment σ) : List Expr → (depth : Nat) → List (Value → Action σ Value)
  | [] => fun _ => []
  | e :: rest => fun depth => e.meaning env depth :: meanings env rest depth
termination_by structural es => es

end

theorem meanings_eq_map (env : Environment σ) (es : List Expr) (depth : Nat) :
    meanings env es depth = es.map fun e => e.meaning env depth := by
  induction es with
  | nil => rfl
  | cons e es ih => exact congrArg (e.meaning env depth :: ·) ih

theorem meaning_array (env : Environment σ) (items : List Expr) (depth : Nat) (data : Value) :
    (array items).meaning env depth data =
      env.nested (depth + 1)
        (Value.array <$> Environment.values (meanings env items (depth + 1)) data) := rfl

theorem meaning_call (env : Environment σ) (site : CallSite) (args : List Expr) (depth : Nat)
    (data : Value) :
    (call site args).meaning env depth data =
      env.nested (depth + 1) (env.apply site args (meanings env args (depth + 1)) data) := rfl

end Expr

namespace Environment

variable {σ α : Type}

theorem values_cons (operand : Value → Action σ Value)
    (operands : List (Value → Action σ Value)) (data : Value) :
    values (operand :: operands) data =
      (do
        let v ← operand data
        let vs ← values operands data
        pure (v :: vs)) := by
  rw [values, List.mapM_cons]
  rfl

theorem values_meanings_cons (env : Environment σ) (e : Expr) (es : List Expr) (depth : Nat)
    (data : Value) :
    values (Expr.meanings env (e :: es) depth) data =
      (do
        let v ← e.meaning env depth data
        let vs ← values (Expr.meanings env es depth) data
        pure (v :: vs)) :=
  values_cons _ _ data

theorem operand_eq_getD (operands : List (Value → Action σ Value)) (i : Nat) :
    operand operands i = operands[i]?.getD fun _ => pure .null := by
  funext data
  rw [operand]
  cases operands[i]? with
  | none => rfl
  | some operand => rfl

theorem operand_meanings (env : Environment σ) (es : List Expr) (depth : Nat) (i : Nat) (data : Value) :
    operand (Expr.meanings env es depth) i data =
      (es[i]?.map fun e => e.meaning env depth data).getD (pure .null) := by
  rw [operand_eq_getD, Expr.meanings_eq_map, List.getElem?_map]
  cases es[i]? with
  | none => rfl
  | some e => rfl

/-- One level deeper, runs are still related if it does no harm that both meet the limit there. -/
theorem nested_related {β : Type} {R : Action σ α → Action σ β → Prop} {env other : Environment σ}
    (hmaxDepth : env.maxDepth = other.maxDepth)
    (hlimit : ∀ limit, env.maxDepth = some limit →
      R (throw (.depthLimitExceeded limit)) (throw (.depthLimitExceeded limit)))
    {x : Action σ α} {y : Action σ β} (h : R x y) (depth : Nat) :
    R (env.nested depth x) (other.nested depth y) := by
  rw [nested, nested, ← hmaxDepth]
  cases hexceeded : env.maxDepth.filter (· < depth) with
  | none => exact h
  | some limit => exact hlimit limit (Option.filter_eq_some_iff.mp hexceeded).1

end Environment

end JsonRules
