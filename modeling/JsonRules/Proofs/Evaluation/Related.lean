import JsonRules.Proofs.Evaluation.Environment
import JsonRules.Proofs.Lifting
import JsonRules.Proofs.Operator.Conduct

/-!
# Related evaluations

If a relation of runs goes along with sequencing, operators that go through with failures make related
runs of related operands.  So the meanings of a tree in two environments are related as soon as those of
its calls are.  Failing in some ways only is such a relation, of a run with itself.
-/

namespace JsonRules

variable {σ α β : Type} {P : Error → Prop}

namespace Action

/-- From any state on, a failure of the run is in `P`. -/
def Fails (P : Error → Prop) (x : Action σ α) : Prop := ∀ host, FailsIn P (x.run host).result

theorem Fails.pure (a : α) : Fails P (Pure.pure a : Action σ α) := fun _ => FailsIn.ok a

theorem Fails.throw {e : Error} (he : P e) : Fails P (throw e : Action σ α) :=
  fun _ => FailsIn.error he

theorem Fails.lift (run : Run σ α) : Fails P (ExceptT.lift run : Action σ α) :=
  fun host => FailsIn.ok (run host).result

theorem Fails.bind {x : Action σ α} {next : α → Action σ β} (h : Fails P x)
    (hnext : ∀ a, Fails P (next a)) : Fails P (x >>= next) := by
  intro host
  rw [ExceptT.run_bind, Run.bind_apply]
  cases hresult : (x.run host).result with
  | ok a => exact hnext a (x.run host).state
  | error e => exact FailsIn.error (h host e hresult)

/-- The relation holds of equal results and goes along with sequencing. -/
structure Congruence (R : ∀ {α : Type}, Action σ α → Action σ α → Prop) : Prop where
  pure : ∀ {α : Type} (a : α), R (Pure.pure a) (Pure.pure a)
  bind : ∀ {α β : Type} {x y : Action σ α} {next after : α → Action σ β},
    R x y → (∀ a, R (next a) (after a)) → R (x >>= next) (y >>= after)

/-- The relation holds of a run and itself if that fails in `P` only, and it goes along with
sequencing. -/
structure Sequential (P : Error → Prop) (R : ∀ {α : Type}, Action σ α → Action σ α → Prop) :
    Prop where
  refl : ∀ {α : Type} {x : Action σ α}, Fails P x → R x x
  bind : ∀ {α β : Type} {x y : Action σ α} {next after : α → Action σ β},
    R x y → (∀ a, R (next a) (after a)) → R (x >>= next) (y >>= after)

theorem Sequential.congruence {R : ∀ {α : Type}, Action σ α → Action σ α → Prop}
    (hR : Sequential P R) : Congruence R :=
  ⟨fun a => hR.refl (Fails.pure a), hR.bind⟩

theorem sequential_fails (P : Error → Prop) :
    Sequential P (fun {α : Type} (x _ : Action σ α) => Fails P x) :=
  ⟨fun h => h, fun h hnext => h.bind hnext⟩

end Action

open JsonRules.Action

namespace Environment

variable {env other : Environment σ} {R : ∀ {α : Type}, Action σ α → Action σ α → Prop}

/-- The calls at the site are related: both find the same operator, which goes through with failures,
or what they fail with is related. -/
inductive RelatedAt (P : Error → Prop) (R : ∀ {α : Type}, Action σ α → Action σ α → Prop)
    (env other : Environment σ) (site : CallSite) : Prop where
  | found {operator : Operator σ} (here : env.operator site = .ok operator)
      (there : other.operator site = .ok operator) (failsFast : operator.FailsFast P)
  | missing {d e : Error} (here : env.operator site = .error d)
      (there : other.operator site = .error e)
      (related : R (throw d : Action σ Value) (throw e))

/-- The environments differ in nothing but the operators of calls, and meeting the limit is a failure
in `P`. -/
structure Matches (P : Error → Prop) (env other : Environment σ) : Prop where
  isRegistered : env.isRegistered = other.isRegistered
  maxDepth : env.maxDepth = other.maxDepth
  limit : ∀ limit, env.maxDepth = some limit → P (.depthLimitExceeded limit)

theorem script_evaluate {args : List Expr} {operands : List (Value → Action σ Value)}
    {i : Nat} {data : Value} {next : Except Error Value → Script σ (Except Error α)}
    (h : ∀ e, next (.error e) = .done (.error e)) :
    env.script args operands (.evaluate i data next) =
      (operand operands i data >>= fun v =>
        ExceptT.mk (env.script args operands (next (.ok v)))).run := by
  rw [script, ExceptT.run_bind]
  refine bind_congr fun outcome => ?_
  cases outcome with
  | ok v => rfl
  | error e =>
      rw [h e]
      rfl

theorem script_perform (args : List Expr) (operands : List (Value → Action σ Value))
    (action : Run σ Unit) (next : σ → Script σ (Except Error α)) :
    env.script args operands (.perform action next) =
      (ExceptT.lift action >>= fun _ => ExceptT.lift Run.get >>= fun s =>
        ExceptT.mk (env.script args operands (next s)) : Action σ α).run := by
  rw [script, ExceptT.run_bind_lift]
  refine bind_congr fun _ => ?_
  rw [ExceptT.run_bind_lift]
  rfl

section Operands

variable {operands others : List (Value → Action σ Value)}
  (h : List.Forall₂ (fun x y => ∀ data, R (x data) (y data)) operands others)

include h

theorem values_related (hR : Congruence R) (data : Value) :
    R (values operands data) (values others data) := by
  induction h with
  | nil => exact hR.pure []
  | cons hxy _ ih =>
      rw [values_cons, values_cons]
      exact hR.bind (hxy data) fun v => hR.bind ih fun vs => hR.pure (v :: vs)

theorem operand_related (hR : Congruence R) (i : Nat) (data : Value) :
    R (operand operands i data) (operand others i data) := by
  rw [operand_eq_getD, operand_eq_getD]
  exact rel_getD (rel_getElem? h i) (fun _ => hR.pure Value.null) data

variable (hR : Sequential P R)

include hR

theorem script_related (hregistered : env.isRegistered = other.isRegistered) (args : List Expr)
    {s : Script σ (Except Error α)} (hs : s.Propagates) (hraises : s.Raises P) :
    R (ExceptT.mk (env.script args operands s)) (ExceptT.mk (other.script args others s)) := by
  induction s with
  | done outcome => exact hR.refl fun _ => hraises
  | evaluate i data next ih =>
      rw [script_evaluate hs.1, script_evaluate hs.1]
      exact hR.bind (operand_related h hR.congruence i data) fun v => ih (.ok v) (hs.2 v) (hraises v)
  | quote i next ih => exact ih _ (hs _) (hraises _)
  | isRegistered name next ih =>
      rw [script, script, hregistered]
      exact ih _ (hs _) (hraises _)
  | perform action next ih =>
      rw [script_perform, script_perform]
      refine hR.bind (hR.refl (Fails.lift action)) fun _ => ?_
      exact hR.bind (hR.refl (Fails.lift Run.get)) fun s => ih s (hs s) (hraises s)

theorem run_related (hregistered : env.isRegistered = other.isRegistered) (args : List Expr)
    {operator : Operator σ} (hoperator : operator.FailsFast P) (data : Value) :
    R (env.run args operands data operator) (other.run args others data operator) := by
  cases operator with
  | eager f =>
      exact hR.bind (values_related h hR.congruence data) fun values => hR.refl (hoperator values data)
  | lazy f =>
      have hscript := hoperator args.length data
      exact script_related h hR hregistered args hscript.propagates hscript.raises

theorem apply_related (hregistered : env.isRegistered = other.isRegistered) {site : CallSite}
    (hsite : env.RelatedAt P R other site) (args : List Expr) (data : Value) :
    R (env.apply site args operands data) (other.apply site args others data) := by
  rw [apply, apply]
  cases hsite with
  | found here there failsFast =>
      rw [here, there]
      refine hR.bind (hR.refl (Fails.lift _)) fun _ => ?_
      exact run_related h hR hregistered args failsFast data
  | missing here there related =>
      rw [here, there]
      exact related

end Operands

end Environment

namespace Expr

variable {env other : Environment σ} {R : ∀ {α : Type}, Action σ α → Action σ α → Prop}

theorem meanings_related {R : Action σ Value → Action σ Value → Prop} {es others : List Expr}
    {depth : Nat} (h : List.Forall₂ (fun e f => ∀ data,
      R (e.meaning env depth data) (f.meaning other depth data)) es others) :
    List.Forall₂ (fun x y => ∀ data, R (x data) (y data)) (meanings env es depth)
      (meanings other others depth) := by
  rw [meanings_eq_map, meanings_eq_map, List.forall₂_map_left_iff, List.forall₂_map_right_iff]
  exact h

theorem meaning_related (hR : Sequential P R) (henv : env.Matches P other) {e : Expr}
    (hsites : ∀ site ∈ e.sites, env.RelatedAt P R other site) : ∀ (depth : Nat) (data : Value),
    R (e.meaning env depth data) (e.meaning other depth data) := by
  have hnested : ∀ {x y : Action σ Value}, R x y → ∀ depth,
      R (env.nested depth x) (other.nested depth y) :=
    Environment.nested_related henv.maxDepth fun limit h => hR.refl (Fails.throw (henv.limit limit h))
  induction e with
  | literal v => exact fun _ _ => hR.refl (Fails.pure v)
  | array items ih =>
      intro depth data
      rw [meaning_array, meaning_array, ← bind_pure_comp, ← bind_pure_comp]
      have hitems := meanings_related (List.forall₂_same.mpr fun e he =>
        ih e he (fun site hs => hsites site (mem_sites_array.mpr ⟨e, he, hs⟩)) (depth + 1))
      exact hnested (hR.bind (Environment.values_related hitems hR.congruence data) fun values =>
        hR.refl (Fails.pure _)) (depth + 1)
  | call site args ih =>
      intro depth data
      rw [meaning_call, meaning_call]
      have hargs := meanings_related (List.forall₂_same.mpr fun e he =>
        ih e he (fun site hs => hsites site (mem_sites_call.mpr (.inr ⟨e, he, hs⟩))) (depth + 1))
      have hsite := hsites site (mem_sites_call.mpr (.inl rfl))
      exact hnested (Environment.apply_related hargs hR henv.isRegistered hsite args data) (depth + 1)

/-- A failure of a tree is one of its operators, of looking for one of them, or of the limit. -/
theorem meaning_fails {e : Expr}
    (hfound : ∀ site ∈ e.sites, ∀ operator, env.operator site = .ok operator → operator.FailsFast P)
    (hmissing : ∀ site ∈ e.sites, ∀ error, env.operator site = .error error → P error)
    (hlimit : ∀ limit, env.maxDepth = some limit → P (.depthLimitExceeded limit)) (depth : Nat)
    (data : Value) : Fails P (e.meaning env depth data) := by
  refine meaning_related (sequential_fails P) ⟨rfl, rfl, hlimit⟩ (fun site hsite => ?_) depth data
  cases hoperator : env.operator site with
  | ok operator => exact .found hoperator hoperator (hfound site hsite operator hoperator)
  | error error =>
      exact .missing hoperator hoperator (Fails.throw (hmissing site hsite error hoperator))

end Expr

end JsonRules
