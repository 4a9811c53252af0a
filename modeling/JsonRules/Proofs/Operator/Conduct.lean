import JsonRules.Operator.Basic

/-!
# Conduct of operators

What may be relied on about operators one does not know: which names they ask the registry for,
whether a failing operand ends them, and which failures are their own.  A plain operator does nothing
but evaluate operands, and that is kept when one script follows another.
-/

namespace JsonRules

variable {σ α β : Type}

def FailsIn (P : Error → Prop) (outcome : Except Error α) : Prop := ∀ e, outcome = .error e → P e

namespace FailsIn

variable {P : Error → Prop}

theorem ok (a : α) : FailsIn P (.ok a) := fun _ he => by cases he

theorem error {e : Error} (he : P e) : FailsIn P (.error e : Except Error α) := by
  rintro d hd
  cases hd
  exact he

theorem bind {x : Except Error α} {f : α → Except Error β}
    (h : FailsIn P x) (hf : ∀ a, FailsIn P (f a)) : FailsIn P (x >>= f) := by
  cases x with
  | ok a => exact hf a
  | error e => exact error (h e rfl)

theorem mono {Q : Error → Prop} (hPQ : ∀ e, P e → Q e) {x : Except Error α}
    (h : FailsIn P x) : FailsIn Q x := fun e he => hPQ e (h e he)

end FailsIn

namespace Script

/-- The script asks only for names in `P` whether they are registered. -/
def AsksOnly (P : String → Prop) : Script σ α → Prop
  | done _ => True
  | evaluate _ _ next => ∀ outcome, (next outcome).AsksOnly P
  | quote _ next => ∀ v, (next v).AsksOnly P
  | isRegistered name next => P name ∧ ∀ b, (next b).AsksOnly P
  | perform _ next => ∀ s, (next s).AsksOnly P

/-- The script ends with the failure of an operand as soon as there is one. -/
def Propagates : Script σ (Except Error α) → Prop
  | done _ => True
  | evaluate _ _ next => (∀ e, next (.error e) = done (.error e)) ∧ ∀ v, (next (.ok v)).Propagates
  | quote _ next => ∀ v, (next v).Propagates
  | isRegistered _ next => ∀ b, (next b).Propagates
  | perform _ next => ∀ s, (next s).Propagates

/-- While its operands succeed, the script fails only in ways that are in `P`. -/
def Raises (P : Error → Prop) : Script σ (Except Error α) → Prop
  | done outcome => FailsIn P outcome
  | evaluate _ _ next => ∀ v, (next (.ok v)).Raises P
  | quote _ next => ∀ v, (next v).Raises P
  | isRegistered _ next => ∀ b, (next b).Raises P
  | perform _ next => ∀ s, (next s).Raises P

theorem AsksOnly.mono {P Q : String → Prop} (hPQ : ∀ name, P name → Q name)
    {s : Script σ α} (h : s.AsksOnly P) : s.AsksOnly Q := by
  induction s with
  | done a => trivial
  | evaluate i data next ih => exact fun outcome => ih outcome (h outcome)
  | quote i next ih => exact fun v => ih v (h v)
  | isRegistered name next ih => exact ⟨hPQ name h.1, fun b => ih b (h.2 b)⟩
  | perform action next ih => exact fun s => ih s (h s)

theorem asksOnly_of_forall {P : String → Prop} (hP : ∀ name, P name) (s : Script σ α) :
    s.AsksOnly P := by
  induction s with
  | done a => trivial
  | evaluate i data next ih => exact ih
  | quote i next ih => exact ih
  | isRegistered name next ih => exact ⟨hP name, ih⟩
  | perform action next ih => exact ih

theorem Raises.mono {P Q : Error → Prop} (hPQ : ∀ e, P e → Q e)
    {s : Script σ (Except Error α)} (h : s.Raises P) : s.Raises Q := by
  induction s with
  | done outcome => exact FailsIn.mono hPQ h
  | evaluate i data next ih => exact fun v => ih (.ok v) (h v)
  | quote i next ih => exact fun v => ih v (h v)
  | isRegistered name next ih => exact fun b => ih b (h b)
  | perform action next ih => exact fun s => ih s (h s)

/-- The script only evaluates operands.  It ends with the first failure of one, and its own failures
are in `P`. -/
def Evaluates (P : Error → Prop) : Script σ (Except Error α) → Prop
  | done outcome => FailsIn P outcome
  | evaluate _ _ next =>
      (∀ e, next (.error e) = done (.error e)) ∧ ∀ v, (next (.ok v)).Evaluates P
  | _ => False

namespace Evaluates

variable {P Q : Error → Prop} {s : Script σ (Except Error α)}

theorem propagates (h : s.Evaluates P) : s.Propagates := by
  induction s with
  | done outcome => trivial
  | evaluate i data next ih => exact ⟨h.1, fun v => ih (.ok v) (h.2 v)⟩
  | quote i next ih => exact h.elim
  | isRegistered name next ih => exact h.elim
  | perform action next ih => exact h.elim

theorem raises (h : s.Evaluates P) : s.Raises P := by
  induction s with
  | done outcome => exact h
  | evaluate i data next ih => exact fun v => ih (.ok v) (h.2 v)
  | quote i next ih => exact h.elim
  | isRegistered name next ih => exact h.elim
  | perform action next ih => exact h.elim

theorem mono (hPQ : ∀ e, P e → Q e) (h : s.Evaluates P) : s.Evaluates Q := by
  induction s with
  | done outcome => exact FailsIn.mono hPQ h
  | evaluate i data next ih => exact ⟨h.1, fun v => ih (.ok v) (h.2 v)⟩
  | quote i next ih => exact h.elim
  | isRegistered name next ih => exact h.elim
  | perform action next ih => exact h.elim

end Evaluates

def after (f : α → LazyScript σ β) (outcome : Except Error α) : Script σ (Except Error β) :=
  match outcome with
  | .ok a => (f a).run
  | .error e => done (.error e)

theorem Evaluates.bind {P : Error → Prop} {s : Script σ (Except Error α)}
    {f : α → LazyScript σ β} (h : s.Evaluates P) (hf : ∀ a, (f a).run.Evaluates P) :
    (s.bind (after f)).Evaluates P := by
  induction s with
  | done outcome =>
      cases outcome with
      | ok a => exact hf a
      | error e => exact FailsIn.error (h e rfl)
  | evaluate i data next ih =>
      refine ⟨fun e => ?_, fun v => ih (.ok v) (h.2 v)⟩
      exact congrArg (Script.bind · (after f)) (h.1 e)
  | quote i next ih => exact h.elim
  | isRegistered name next ih => exact h.elim
  | perform action next ih => exact h.elim

end Script

namespace LazyScript

variable {P : Error → Prop}

theorem run_bind (x : LazyScript σ α) (f : α → LazyScript σ β) :
    (x >>= f).run = x.run.bind (Script.after f) := by
  rw [ExceptT.run_bind]
  refine congrArg x.run.bind (funext fun outcome => ?_)
  cases outcome with
  | ok a => rfl
  | error e => rfl

structure FailsFast (P : Error → Prop) (x : LazyScript σ α) : Prop where
  propagates : x.run.Propagates
  raises : x.run.Raises P

def Plain (P : Error → Prop) (x : LazyScript σ α) : Prop := x.run.Evaluates P

namespace Plain

theorem pure (a : α) : Plain P (Pure.pure a : LazyScript σ α) := FailsIn.ok a

theorem throw {e : Error} (he : P e) : Plain P (MonadExcept.throw e : LazyScript σ α) :=
  FailsIn.error he

theorem evaluate (i : Nat) (data : Value) :
    Plain P (LazyScript.evaluate i data : LazyScript σ Value) :=
  ⟨fun _ => rfl, fun v => FailsIn.ok v⟩

theorem bind {x : LazyScript σ α} {f : α → LazyScript σ β} (h : Plain P x)
    (hf : ∀ a, Plain P (f a)) : Plain P (x >>= f) := by
  rw [Plain, run_bind]
  exact Script.Evaluates.bind h hf

theorem mono {Q : Error → Prop} (hPQ : ∀ e, P e → Q e) {x : LazyScript σ α} (h : Plain P x) :
    Plain Q x := Script.Evaluates.mono hPQ h

theorem failsFast {x : LazyScript σ α} (h : Plain P x) : FailsFast P x :=
  ⟨Script.Evaluates.propagates h, Script.Evaluates.raises h⟩

end Plain

end LazyScript

namespace Operator

def AsksOnly (P : String → Prop) : Operator σ → Prop
  | eager _ => True
  | lazy f => ∀ operands data, (f operands data).run.AsksOnly P

/-- The operator goes through with the failures of its operands, and its own ones are in `P`. -/
def FailsFast (P : Error → Prop) : Operator σ → Prop
  | eager f => ∀ args data host, FailsIn P (f args data host).result
  | lazy f => ∀ operands data, (f operands data).FailsFast P

/-- The operator neither reads nor changes the host and only evaluates its operands.  Its own failures
with so many operands are in `P`. -/
def Plain (P : (operands : Nat) → Error → Prop) : Operator σ → Prop
  | eager f => ∀ args data, ∃ outcome events,
      FailsIn (fun e => ∀ operands, P operands e) outcome ∧
        ∀ host, f args data host = ⟨outcome, events, host⟩
  | lazy f => ∀ operands data, (f operands data).Plain (P operands)

theorem AsksOnly.mono {P Q : String → Prop} (hPQ : ∀ name, P name → Q name)
    {operator : Operator σ} (h : operator.AsksOnly P) : operator.AsksOnly Q := by
  cases operator with
  | eager f => trivial
  | lazy f => exact fun operands data => Script.AsksOnly.mono hPQ (h operands data)

theorem FailsFast.mono {P Q : Error → Prop} (hPQ : ∀ e, P e → Q e) {operator : Operator σ}
    (h : operator.FailsFast P) : operator.FailsFast Q := by
  cases operator with
  | eager f => exact fun args data host => (h args data host).mono hPQ
  | lazy f =>
      exact fun operands data =>
        ⟨(h operands data).propagates, (h operands data).raises.mono hPQ⟩

theorem Plain.failsFast {P : Nat → Error → Prop} {Q : Error → Prop}
    (hPQ : ∀ operands e, P operands e → Q e) {operator : Operator σ} (h : operator.Plain P) :
    operator.FailsFast Q := by
  cases operator with
  | eager f =>
      intro args data host
      obtain ⟨outcome, events, hfails, hrun⟩ := h args data
      rw [hrun host]
      exact hfails.mono fun e he => hPQ 0 e (he 0)
  | lazy f =>
      intro operands data
      have hfast := (h operands data).failsFast
      exact ⟨hfast.propagates, hfast.raises.mono (hPQ operands)⟩

theorem asksOnly_of_forall {P : String → Prop} (hP : ∀ name, P name) (operator : Operator σ) :
    operator.AsksOnly P := by
  cases operator with
  | eager f => trivial
  | lazy f => exact fun operands data => Script.asksOnly_of_forall hP _

end Operator

end JsonRules
