import JsonRules.Proofs.Evaluation.Environment
import JsonRules.Proofs.Operator.Conduct

/-!
# Environments that agree on a tree

The meaning of a tree depends on its environment only through the operators of its calls and through
what those operators ask for.  A change of the call sites is the same as the opposite change of the
environment.
-/

namespace JsonRules

variable {σ α : Type}

namespace Environment

/-- Both find the same for a call, and what is found asks for nothing that they tell apart. -/
structure AgreesAt (env other : Environment σ) (site : CallSite) : Prop where
  operator : env.operator site = other.operator site
  asks : ∀ operator, env.operator site = .ok operator →
    operator.AsksOnly fun name => env.isRegistered name = other.isRegistered name

variable {env other : Environment σ}

theorem script_congr {args : List Expr} {operands : List (Value → Action σ Value)}
    {s : Script σ α}
    (hs : s.AsksOnly fun name => env.isRegistered name = other.isRegistered name) :
    env.script args operands s = other.script args operands s := by
  induction s with
  | done a => rfl
  | evaluate i data next ih =>
      rw [script, script]
      exact bind_congr fun outcome => ih outcome (hs outcome)
  | quote i next ih => exact ih _ (hs _)
  | isRegistered name next ih =>
      rw [script, script, hs.1]
      exact ih _ (hs.2 _)
  | perform action next ih =>
      rw [script, script]
      exact bind_congr fun _ => bind_congr fun s => ih s (hs s)

theorem apply_congr {site : CallSite} (h : env.AgreesAt other site) (args : List Expr)
    (operands : List (Value → Action σ Value)) (data : Value) :
    env.apply site args operands data = other.apply site args operands data := by
  have hasks := h.asks
  rw [apply, apply, ← h.operator]
  cases hop : env.operator site with
  | error e => rfl
  | ok operator =>
      have hrun : env.run args operands data operator = other.run args operands data operator := by
        cases operator with
        | eager f => rfl
        | lazy f =>
            exact congrArg ExceptT.mk (script_congr (hasks _ hop args.length data))
      dsimp only
      rw [hrun]

/-- Of its argument trees a script sees nothing but the rules they are written as. -/
theorem script_of_toRule_eq {args others : List Expr}
    (h : args.map Expr.toRule = others.map Expr.toRule)
    (operands : List (Value → Action σ Value)) (s : Script σ α) :
    env.script args operands s = env.script others operands s := by
  induction s with
  | done a => rfl
  | evaluate i data next ih =>
      rw [script, script]
      exact bind_congr ih
  | quote i next ih =>
      rw [script, script, ← List.getElem?_map, ← List.getElem?_map, h]
      exact ih _
  | isRegistered name next ih => exact ih _
  | perform action next ih =>
      rw [script, script]
      exact bind_congr fun _ => bind_congr ih

theorem apply_of_toRule_eq {args others : List Expr}
    (h : args.map Expr.toRule = others.map Expr.toRule) (site : CallSite)
    (operands : List (Value → Action σ Value)) (data : Value) :
    env.apply site args operands data = env.apply site others operands data := by
  have hlength : args.length = others.length := by
    simpa only [List.length_map] using congrArg List.length h
  rw [apply, apply, hlength]
  cases env.operator site with
  | error e => rfl
  | ok operator =>
      cases operator with
      | eager f => rfl
      | lazy f =>
          dsimp only
          rw [run, run, hlength, script_of_toRule_eq h]

def comap (env : Environment σ) (f : CallSite → CallSite) : Environment σ :=
  { env with operator := fun site => env.operator (f site) }

/-- The change shows in the name and the operator of a call, and in the rules of its arguments. -/
theorem apply_mapSites {f : CallSite → CallSite} (hf : ∀ site, (f site).name = site.name)
    (site : CallSite) (args : List Expr) (operands : List (Value → Action σ Value)) (data : Value) :
    env.apply (f site) (args.map (Expr.mapSites f)) operands data =
      (env.comap f).apply site args operands data := by
  have hrules : (args.map (Expr.mapSites f)).map Expr.toRule = args.map Expr.toRule := by
    rw [List.map_map]
    exact List.map_congr_left fun e _ => Expr.toRule_mapSites hf e
  have hasks : ∀ name : String, env.isRegistered name = (env.comap f).isRegistered name :=
    fun _ => rfl
  have hrun : ∀ operator : Operator σ,
      env.run args operands data operator = (env.comap f).run args operands data operator := by
    intro operator
    cases operator with
    | eager run => rfl
    | lazy run => exact congrArg ExceptT.mk (script_congr (Script.asksOnly_of_forall hasks _))
  have hoperator : (env.comap f).operator site = env.operator (f site) := rfl
  rw [apply_of_toRule_eq hrules, apply, apply, hoperator, hf]
  cases env.operator (f site) with
  | error e => rfl
  | ok operator =>
      dsimp only
      rw [hrun]

end Environment

namespace Expr

variable {env other : Environment σ}

/-- Environments with the same limit that agree at every call give a tree the same meaning. -/
theorem meaning_congr (hlimit : env.maxDepth = other.maxDepth) (e : Expr)
    (h : ∀ site ∈ e.sites, env.AgreesAt other site) : e.meaning env = e.meaning other := by
  have hnested : ∀ depth (step : Action σ Value),
      env.nested depth step = other.nested depth step := by
    intro depth step
    rw [Environment.nested, Environment.nested, hlimit]
  have hall : ∀ es : List Expr, (∀ e ∈ es, e.meaning env = e.meaning other) →
      meanings env es = meanings other es := by
    intro es hes
    funext depth
    rw [meanings_eq_map, meanings_eq_map]
    exact List.map_congr_left fun e he => congrFun (hes e he) depth
  induction e with
  | literal v => rfl
  | array items ih =>
      have hitems := hall items fun e he =>
        ih e he fun s hs => h s (mem_sites_array.mpr ⟨e, he, hs⟩)
      funext depth data
      rw [meaning_array, meaning_array, hnested, hitems]
  | call site args ih =>
      have hargs := hall args fun e he =>
        ih e he fun s hs => h s (mem_sites_call.mpr (.inr ⟨e, he, hs⟩))
      funext depth data
      rw [meaning_call, meaning_call, hnested, hargs,
        Environment.apply_congr (h site (mem_sites_call.mpr (.inl rfl)))]

theorem meaning_mapSites {f : CallSite → CallSite} (hf : ∀ site, (f site).name = site.name)
    (e : Expr) : (e.mapSites f).meaning env = e.meaning (env.comap f) := by
  have hall : ∀ es : List Expr, (∀ e ∈ es, (e.mapSites f).meaning env = e.meaning (env.comap f)) →
      meanings env (es.map (mapSites f)) = meanings (env.comap f) es := by
    intro es hes
    funext depth
    rw [meanings_eq_map, meanings_eq_map, List.map_map]
    exact List.map_congr_left fun e he => congrFun (hes e he) depth
  induction e with
  | literal v => rfl
  | array items ih =>
      funext depth data
      rw [mapSites_array, meaning_array, meaning_array, hall items ih]
      rfl
  | call site args ih =>
      funext depth data
      rw [mapSites_call, meaning_call, meaning_call, hall args ih, Environment.apply_mapSites hf]
      rfl

end Expr

end JsonRules
