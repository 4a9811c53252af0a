import JsonRules.Context

/-!
# Evaluation

A literal is its own value, an array has the values of its elements, and a call has the value that its
operator gives.  Elements and arguments are evaluated from left to right, and the first failure ends
the evaluation.  An array or call is one level deeper than what it stands in.

An evaluation is made of steps that change its context or the state of the host.  Normally these are
run and that is all, but whoever performs them may also take notes.
-/

namespace JsonRules

/-- What an evaluation changes: its context and the state of the host. -/
structure Evaluation (σ : Type) where
  context : Context σ
  host : σ

abbrev Eval (σ α : Type) : Type := ExceptT Error (Run (Evaluation σ)) α

/-- A way to perform the steps of an evaluation. -/
class Performer (σ : outParam Type) (m : Type → Type) where
  step {α : Type} (run : Run (Evaluation σ) α) : m α
  /-- What is done on coming to a node, which is inside so many arrays and calls. -/
  visit (level : Nat) (node : Expr) : m Unit

/-- The steps are run, and nothing else is done. -/
instance {σ : Type} : Performer σ (Run (Evaluation σ)) where
  step run := run
  visit _ _ := pure ()

abbrev Performer.Operand (m : Type → Type) : Type := Value → ExceptT Error m Value

open Performer (Operand)

namespace Eval

variable {σ α : Type}

def context : Eval σ (Context σ) :=
  ExceptT.lift fun s => ⟨s.context, [], s⟩

def setContext (c : Context σ) : Eval σ Unit :=
  ExceptT.lift (Run.modify fun s => { s with context := c })

def emit (event : Event) : Eval σ Unit := ExceptT.lift (Run.emit event)

def ofHost (run : Run σ α) : Run (Evaluation σ) α := fun s =>
  let ran := run s.host
  ⟨ran.result, ran.events, { s with host := ran.state }⟩

/-- Leaves the level of a step that has come to its end, well or not. -/
def leave : Run (Evaluation σ) Unit :=
  Run.modify fun s => { s with context := s.context.leave }

section Performer

variable {m : Type → Type} [Monad m] [Performer σ m]

def step (x : Eval σ α) : ExceptT Error m α := ExceptT.mk (Performer.step x.run)

def visit (level : Nat) (node : Expr) : ExceptT Error m Unit :=
  ExceptT.lift (Performer.visit level node)

/-- Goes one level deeper; where that is too deep, it comes back at once and fails. -/
def enter : ExceptT Error m Unit := do
  let c ← step context
  step (setContext c.deeper)
  match c.deeper.exceeded? with
  | some limit => do
      step (ExceptT.lift leave)
      throw (.depthLimitExceeded limit)
  | none => pure ()

def nested (x : ExceptT Error m α) : ExceptT Error m α := do
  enter
  ExceptT.mk do
    let outcome ← x.run
    Performer.step leave
    pure outcome

/-- The values of all operands, up to the first that fails. -/
def all (data : Value) : List (Operand m) → ExceptT Error m (List Value)
  | [] => pure []
  | operand :: rest => do
      let v ← operand data
      let vs ← all data rest
      pure (v :: vs)

def at? (operands : List (Operand m)) (i : Nat) (data : Value) : m (Except Error Value) :=
  match operands[i]? with
  | some operand => (operand data).run
  | none => pure (.ok .null)

/-- Answers a script: the operands are those of a call with the given argument trees. -/
def script (args : List Expr) (operands : List (Operand m)) : Script σ α → m α
  | .done a => pure a
  | .evaluate i data next => do
      let outcome ← at? operands i data
      script args operands (next outcome)
  | .quote i next => script args operands (next ((args[i]?.map Expr.toRule).getD .null))
  | .isRegistered name next => do
      let s ← Performer.step Run.get
      script args operands (next (s.context.registry.contains name))
  | .perform action next => do
      Performer.step (ofHost action)
      let s ← Performer.step Run.get
      script args operands (next s.host)

def operate (args : List Expr) (operands : List (Operand m)) (data : Value) :
    Operator σ → ExceptT Error m Value
  | .eager run => do
      let values ← all data operands
      ExceptT.mk (Performer.step (ofHost (run values data)))
  | .lazy run => ExceptT.mk (script args operands (run args.length data).run)

def apply (site : CallSite) (args : List Expr) (operands : List (Operand m)) (data : Value) :
    ExceptT Error m Value := do
  let c ← step context
  match c.operator? site with
  | none => throw (.unknownOperator site.name site.path.text)
  | some operator => do
      step (emit (.applied site.name args.length))
      operate args operands data operator

end Performer

end Eval

abbrev Eval.Operand (σ : Type) : Type := Performer.Operand (Run (Evaluation σ))

namespace Expr

section Performer

variable {σ : Type} {m : Type → Type} [Monad m] [Performer σ m]

mutual

/-- The value of a tree that stands inside so many arrays and calls. -/
def evaluateBy : Expr → (level : Nat) → Operand m
  | literal v => fun level _ => do
      Eval.visit level (literal v)
      pure v
  | array items => fun level data =>
      Eval.nested do
        Eval.visit (level + 1) (array items)
        let values ← Eval.all data (operandsBy items (level + 1))
        pure (.array values)
  | call site args => fun level data =>
      Eval.nested do
        Eval.visit (level + 1) (call site args)
        Eval.apply site args (operandsBy args (level + 1)) data
termination_by structural e => e

def operandsBy : List Expr → (level : Nat) → List (Operand m)
  | [] => fun _ => []
  | e :: rest => fun level => e.evaluateBy level :: operandsBy rest level
termination_by structural es => es

end

end Performer

/-- The value of a tree against data. -/
def evaluate {σ : Type} (e : Expr) : Eval.Operand σ := e.evaluateBy 0

end Expr

end JsonRules
