import JsonRules.Proofs.Evaluation.Answer
import JsonRules.Proofs.Evaluation.Standard
import JsonRules.Proofs.Lifting
import JsonRules.Proofs.Operator.Kind

/-!
# The order of calls

Without scoped operators an evaluation goes through the calls of a tree in the order in which they
stand there, and through none of them twice.  It may leave some out: what a short-circuit operator does
not need, and what comes after a failure.  Where there is neither, it leaves out nothing.
-/

namespace JsonRules

variable {σ α β : Type}

/-- The name and the number of arguments of an operator that is applied. -/
def Event.applied? : Event → Option (String × Nat)
  | .applied name arguments => some (name, arguments)
  | _ => none

/-- The operators that a run applies. -/
def Ran.calls (ran : Ran σ α) : List (String × Nat) := ran.events.filterMap Event.applied?

namespace Expr

mutual

/-- The calls of a tree with their numbers of arguments, each before those of its arguments. -/
def calls : Expr → List (String × Nat)
  | literal _ => []
  | array items => callsOfAll items
  | call site args => (site.name, args.length) :: callsOfAll args
termination_by structural e => e

def callsOfAll : List Expr → List (String × Nat)
  | [] => []
  | e :: rest => e.calls ++ callsOfAll rest
termination_by structural es => es

end

theorem callsOfAll_eq_flatten (es : List Expr) : callsOfAll es = (es.map calls).flatten := by
  induction es with
  | nil => rfl
  | cons e es ih => rw [callsOfAll, ih, List.map_cons, List.flatten_cons]

end Expr

namespace Action

/-- Of the calls the run applies some, in their order, and if `whole` holds and it succeeds, all. -/
structure Visits (whole : Prop) (calls : List (String × Nat)) (x : Action σ α) : Prop where
  sublist : ∀ host, (x.run host).calls.Sublist calls
  eq_of_ok : whole → ∀ host a, (x.run host).result = .ok a → (x.run host).calls = calls

namespace Visits

variable {whole : Prop} {first second : List (String × Nat)}

theorem pure (a : α) : Visits whole [] (Pure.pure a : Action σ α) :=
  ⟨fun _ => List.Sublist.refl [], fun _ _ _ _ => rfl⟩

theorem throw (e : Error) (calls : List (String × Nat)) :
    Visits whole calls (throw e : Action σ α) :=
  ⟨fun _ => List.nil_sublist calls, fun _ _ _ h => by cases h⟩

theorem emit (name : String) (arguments : Nat) :
    Visits whole [(name, arguments)]
      (ExceptT.lift (Run.emit (.applied name arguments)) : Action σ Unit) :=
  ⟨fun _ => List.Sublist.refl _, fun _ _ _ _ => rfl⟩

theorem bind {x : Action σ α} {next : α → Action σ β} (h : Visits whole first x)
    (hnext : ∀ a, Visits whole second (next a)) : Visits whole (first ++ second) (x >>= next) := by
  have hok : ∀ host a, (x.run host).result = .ok a →
      ((x >>= next).run host).result = ((next a).run (x.run host).state).result ∧
      ((x >>= next).run host).calls =
        (x.run host).calls ++ ((next a).run (x.run host).state).calls := by
    intro host a ha
    rw [ExceptT.run_bind, Run.bind_apply, ha]
    exact ⟨rfl, List.filterMap_append⟩
  have herror : ∀ host e, (x.run host).result = .error e →
      ((x >>= next).run host).result = .error e ∧
      ((x >>= next).run host).calls = (x.run host).calls := by
    intro host e he
    rw [ExceptT.run_bind, Run.bind_apply, he]
    exact ⟨rfl, congrArg (List.filterMap Event.applied?) (List.append_nil _)⟩
  refine ⟨fun host => ?_, fun hwhole host b hb => ?_⟩
  · cases hresult : (x.run host).result with
    | ok a =>
        rw [(hok host a hresult).2]
        exact (h.sublist host).append ((hnext a).sublist _)
    | error e =>
        rw [(herror host e hresult).2]
        exact (h.sublist host).trans (List.sublist_append_left first second)
  · cases hresult : (x.run host).result with
    | ok a =>
        obtain ⟨hsame, hcalls⟩ := hok host a hresult
        rw [hsame] at hb
        rw [hcalls, h.eq_of_ok hwhole host a hresult, (hnext a).eq_of_ok hwhole _ b hb]
    | error e =>
        rw [(herror host e hresult).1] at hb
        cases hb

/-- Calls may be added if the run does not have to apply all. -/
theorem weaken {x : Action σ α} (h : Visits whole first x) (hsublist : first.Sublist second)
    (hwhole : ¬whole) : Visits whole second x :=
  ⟨fun host => (h.sublist host).trans hsublist, fun h => absurd h hwhole⟩

end Visits

end Action

open JsonRules.Action JsonRules.Environment

/-- Of the calls of its operands, taken one operand after the other, the operator applies some in their
order, and all if `whole` holds and it succeeds. -/
def Operator.VisitsInTurn (whole : Prop) (operator : Operator σ) : Prop :=
  ∀ (env : Environment σ) (args : List Expr) (operands : List (Value → Action σ Value))
    (calls : List (List (String × Nat))) (data : Value), args.length = calls.length →
    List.Forall₂ (fun cs x => ∀ data, Visits whole cs (x data)) calls operands →
    Visits whole calls.flatten (env.run args operands data operator)

section Operands

variable {whole : Prop} {env : Environment σ} {args : List Expr}
  {operands : List (Value → Action σ Value)} {calls : List (List (String × Nat))}
  (h : List.Forall₂ (fun cs x => ∀ data, Visits whole cs (x data)) calls operands)

include h

theorem Environment.values_visits (data : Value) :
    Visits whole calls.flatten (values operands data) := by
  induction h with
  | nil => exact Visits.pure []
  | cons hx _ ih =>
      rw [values_cons, List.flatten_cons]
      refine (hx data).bind fun v => ?_
      have hcons : ∀ vs, Visits whole [] (Pure.pure (v :: vs) : Action σ (List Value)) :=
        fun vs => Visits.pure (v :: vs)
      have hrest := ih.bind hcons
      rwa [List.append_nil] at hrest

theorem Environment.operand_visits (i : Nat) (data : Value) :
    Visits whole (calls[i]?.getD []) (operand operands i data) := by
  rw [operand_eq_getD]
  exact rel_getD (rel_getElem? h i) (fun _ => Visits.pure Value.null) data

namespace Builtin

theorem visits_firstDeciding (hwhole : ¬whole) (decides : Value → Bool) (data last : Value)
    (positions : List Nat) :
    Visits whole (positions.flatMap fun i => calls[i]?.getD [])
      (env.answer args operands (firstDeciding decides data last positions)) := by
  induction positions generalizing last with
  | nil => exact Visits.pure last
  | cons i rest ih =>
      simp only [firstDeciding, answer_bind, answer_evaluate, List.flatMap_cons]
      refine (operand_visits h i data).bind fun v => ?_
      split
      · exact (Visits.pure v).weaken (List.nil_sublist _) hwhole
      · exact ih v

theorem visits_branches (hwhole : ¬whole) (data : Value) (positions : List Nat) :
    Visits whole (positions.flatMap fun i => calls[i]?.getD [])
      (env.answer args operands (branches data positions)) := by
  fun_induction branches data positions with
  | case1 condition branch rest ih =>
      simp only [answer_bind, answer_evaluate, List.flatMap_cons]
      refine (operand_visits h condition data).bind fun v => ?_
      split
      · rw [answer_evaluate]
        exact (operand_visits h branch data).weaken (List.sublist_append_left _ _) hwhole
      · exact ih.weaken (List.sublist_append_right _ _) hwhole
  | case2 default =>
      simp only [answer_evaluate, List.flatMap_cons, List.flatMap_nil, List.append_nil]
      exact operand_visits h default data
  | case3 => exact Visits.pure Value.null

end Builtin

end Operands

namespace Builtin

theorem flatMap_range_getElem? (calls : List (List (String × Nat))) :
    ((List.range calls.length).flatMap fun i => calls[i]?.getD []) = calls.flatten := by
  have hmap : (List.range calls.length).map (fun i => calls[i]?.getD []) = calls := by
    refine List.ext_getElem (by simp) fun i _ hi => ?_
    simp [hi]
  rw [List.flatMap_def, hmap]

/-- Apart from the scoped operators, all built-in operators take their operands in turn; only the
short-circuit ones leave some out. -/
theorem visitsInTurn_of_mem_definitions {whole : Prop} {d : Definition σ} (hd : d ∈ definitions)
    (hscoped : d.name ∉ scopedNames) (hwhole : whole → d.name ∉ shortCircuitNames) :
    d.operator.VisitsInTurn whole := by
  intro env args operands calls data hlength h
  have heager : ∀ f : List Value → Value → Run σ (Except Error Value),
      (∀ vs host, (f vs data host).calls = []) →
      Visits whole calls.flatten (env.run args operands data (.eager f)) := by
    intro f hf
    have hrun : ∀ vs, Visits whole [] (ExceptT.mk (f vs data)) := fun vs =>
      ⟨fun host => List.sublist_nil.mpr (hf vs host), fun _ host _ _ => hf vs host⟩
    have hvisits := (values_visits h data).bind hrun
    rwa [List.append_nil] at hvisits
  cases kind_of_mem_definitions hd with
  | access f _ => exact heager _ fun _ _ => rfl
  | function f _ => exact heager _ fun _ _ => rfl
  | log => exact heager _ fun _ _ => rfl
  | shortCircuit decides hmem =>
      have hpart : ¬whole := fun hw => hwhole hw (List.mem_append_left ["if"] hmem)
      rw [← flatMap_range_getElem?, ← hlength]
      simp only [lazily, run_lazy, shortCircuit]
      split
      · exact Visits.throw _ _
      · exact visits_firstDeciding h hpart decides data .null _
  | conditional =>
      have hmem : "if" ∈ shortCircuitNames := by decide
      have hpart : ¬whole := fun hw => hwhole hw hmem
      rw [← flatMap_range_getElem?, ← hlength]
      exact visits_branches h hpart data _
  | elementwise rest hmem => exact (hscoped (List.mem_cons_of_mem "reduce" hmem)).elim
  | reduce => exact (hscoped List.mem_cons_self).elim

end Builtin

namespace Expr

variable {whole : Prop} {env : Environment σ}

/-- If all operators take their operands in turn, a tree visits its calls from left to right. -/
theorem meaning_visits {e : Expr}
    (hfound : ∀ site ∈ e.sites, ∀ operator, env.operator site = .ok operator →
      operator.VisitsInTurn whole) : ∀ (depth : Nat) (data : Value),
    Visits whole e.calls (e.meaning env depth data) := by
  have hnested : ∀ {depth : Nat} {calls : List (String × Nat)} {x : Action σ Value},
      Visits whole calls x → Visits whole calls (env.nested depth x) := by
    intro depth calls x hx
    rw [Environment.nested]
    split
    · exact Visits.throw _ _
    · exact hx
  have hall : ∀ {es : List Expr} {depth : Nat},
      (∀ e ∈ es, ∀ data, Visits whole e.calls (e.meaning env depth data)) →
      List.Forall₂ (fun cs x => ∀ data, Visits whole cs (x data)) (es.map calls)
        (meanings env es depth) := by
    intro es depth hes
    rw [meanings_eq_map, List.forall₂_map_left_iff, List.forall₂_map_right_iff, List.forall₂_same]
    exact hes
  induction e with
  | literal v => exact fun _ _ => Visits.pure v
  | array items ih =>
      intro depth data
      rw [meaning_array, calls, callsOfAll_eq_flatten, ← bind_pure_comp]
      have hitems := hall fun e he => ih e he
        (fun site hs => hfound site (mem_sites_array.mpr ⟨e, he, hs⟩)) (depth + 1)
      have hvalues := (values_visits hitems data).bind fun vs => Visits.pure (Value.array vs)
      rw [List.append_nil] at hvalues
      exact hnested hvalues
  | call site args ih =>
      intro depth data
      rw [meaning_call, calls, callsOfAll_eq_flatten]
      have hargs := hall fun e he => ih e he
        (fun s hs => hfound s (mem_sites_call.mpr (.inr ⟨e, he, hs⟩))) (depth + 1)
      refine hnested ?_
      rw [Environment.apply]
      cases hoperator : env.operator site with
      | error e => exact Visits.throw _ _
      | ok operator =>
          have hturn := hfound site (mem_sites_call.mpr (.inl rfl)) operator hoperator
          have hrun := hturn env args _ _ data (List.length_map _).symm hargs
          exact (Visits.emit site.name args.length).bind fun _ => hrun

end Expr

namespace Context

variable {c : Context σ} {e : Expr}

theorem FindsOnly.visits {P : String → Prop} (h : c.FindsOnly P e) (whole : Prop)
    (hscoped : ∀ name, P name → name ∉ Builtin.scopedNames)
    (hwhole : whole → ∀ name, P name → name ∉ Builtin.shortCircuitNames) (data : Value) :
    Visits whole e.calls (e.meaning c.environment c.depth data) := by
  refine Expr.meaning_visits (fun site hsite operator hoperator => ?_) c.depth data
  obtain ⟨d, hd, rfl, hname⟩ := h site hsite operator (CallSite.found_eq_ok.mp hoperator)
  exact Builtin.visitsInTurn_of_mem_definitions hd (hscoped _ hname) fun hw => hwhole hw _ hname

/-- Without scoped operators an evaluation applies calls of the tree from left to right, each before
those of its arguments and at most once, however it ends.  Without short-circuit operators too, one that
succeeds applies all of them. -/
theorem evaluate_visits (h : c.FindsOnly (· ∉ Builtin.scopedNames) e) (data : Value) (host : σ) :
    ((e.evaluate data).run ⟨c, host⟩).calls.Sublist e.calls ∧
    (c.FindsOnly (fun name => name ∉ Builtin.scopedNames ∧ name ∉ Builtin.shortCircuitNames) e →
      ∀ v, ((e.evaluate data).run ⟨c, host⟩).result = .ok v →
        ((e.evaluate data).run ⟨c, host⟩).calls = e.calls) := by
  rw [e.actsAs_evaluate c data host]
  have hpart := h.visits False (fun _ hname => hname) (fun hw => hw.elim) data
  refine ⟨hpart.sublist host, fun heager => ?_⟩
  have hwhole := heager.visits True (fun _ hname => hname.1) (fun _ _ hname => hname.2) data
  exact hwhole.eq_of_ok trivial host

/-- The second operand is needed only if the first one fails the test. -/
def preferring : Value :=
  .object [("?:", .array [.object [("!", .object [("var", .string "a")])], .string "b",
    .object [("cat", .array [.object [("missing", .string "c")], .object [("absent", .null)]])]])]

/-- All operands are needed. -/
def joining : Value :=
  .object [("merge", .array [.object [("!", .array [.object [("var", .string "")]])],
    .object [("missing", .array [])]])]

set_option maxRecDepth 2000 in
theorem evaluate_visits_preferring : ∃ (r : Registry Unit) (rule eager : CompiledRule),
    r.IsStandard ∧ r.compiled preferring = .ok rule ∧ r.compiled joining = .ok eager ∧
      (new r rule (some 2)).FindsOnly (· ∉ Builtin.scopedNames) rule.root ∧
      rule.root.calls = [("?:", 3), ("!", 1), ("var", 1), ("cat", 2), ("missing", 1), ("absent", 1)] ∧
      (∀ data, ((rule.root.evaluate data).run ⟨new r rule (some 2), ()⟩).calls.Sublist
        rule.root.calls) ∧
      let ran := (eager.root.evaluate (.bool true)).run ⟨new r eager none, ()⟩
      ran.result = .ok (.array [.bool false]) ∧
        ran.calls = [("merge", 2), ("!", 1), ("var", 1), ("missing", 0)] := by
  have hr := Registry.isStandard_registry (σ := Unit) .initial
  have hfinds := hr.findsOnly (P := (· ∉ Builtin.scopedNames)) hr (v := preferring) rfl
    (by decide) (some 2)
  have houter := hr.findsOnly (P := (· ∉ Builtin.scopedNames)) hr (v := joining) rfl (by decide) none
  have heager := hr.findsOnly
    (P := fun name => name ∉ Builtin.scopedNames ∧ name ∉ Builtin.shortCircuitNames) hr (v := joining)
    rfl (by decide) none
  exact ⟨_, _, _, hr, rfl, rfl, hfinds, rfl, fun data => (evaluate_visits hfinds data ()).1, rfl,
    (evaluate_visits houter _ ()).2 heager _ rfl⟩

end Context

end JsonRules
