import JsonRules.Proofs.Evaluation.Watch

/-!
# The context during an evaluation

At every moment of an evaluation the context is that of the start, except that it may be deeper, and
the depth by which it is deeper is the number of arrays and calls on the way to the node at hand.  So
the depth never falls below that of the start, no node is evaluated beyond the limit, and whatever the
operators do with failures, the next evaluation begins where this one did.
-/

namespace JsonRules

variable {σ α β : Type}

structure Context.Deepens (c d : Context σ) : Prop where
  registry : d.registry = c.registry
  bound : d.bound = c.bound
  maxDepth : d.maxDepth = c.maxDepth
  depth : c.depth ≤ d.depth

namespace Context.Deepens

theorem refl (c : Context σ) : c.Deepens c := ⟨rfl, rfl, rfl, Nat.le_refl _⟩

theorem deeper (c : Context σ) : c.Deepens c.deeper := ⟨rfl, rfl, rfl, Nat.le_succ _⟩

theorem of_deeper {c d : Context σ} (h : c.deeper.Deepens d) : c.Deepens d :=
  ⟨h.registry, h.bound, h.maxDepth, Nat.le_of_succ_le h.depth⟩

end Context.Deepens

theorem Context.depth_le_of_exceeded? {c : Context σ} (h : c.exceeded? = none) {limit : Nat}
    (hlimit : c.maxDepth = some limit) : c.depth ≤ limit := by
  by_cases hle : c.depth ≤ limit
  · exact hle
  · have hsome : c.exceeded? = some limit := by
      rw [Context.exceeded?, hlimit]
      simp [Nat.lt_of_not_le hle]
    cases h.symm.trans hsome

/-- What holds when an evaluation comes to a node.  It has begun in the context `c` with a tree of the
given height, inside `level` arrays and calls. -/
structure Context.Visit (c : Context σ) (level height : Nat) (l : Nat) (node : Expr)
    (d : Context σ) : Prop where
  deepens : c.Deepens d
  /-- The counter in the context goes along with the nesting of the tree. -/
  nesting : d.depth + level = c.depth + l
  height : l ≤ level + height
  limit : ∀ limit, c.maxDepth = some limit → c.depth ≤ limit ∨ node.asLiteral? = none →
    d.depth ≤ limit

/-- What holds at every moment of an evaluation. -/
def Moment.Lawful (c : Context σ) (level height : Nat) : Moment σ → Prop
  | passed d => c.Deepens d
  | visited l node d => c.Visit level height l node d

namespace Moment.Lawful

variable {c : Context σ} {level height : Nat}

theorem mono {larger : Nat} (hle : height ≤ larger) {m : Moment σ}
    (h : m.Lawful c level height) : m.Lawful c level larger := by
  cases m with
  | passed d => exact h
  | visited l node d =>
      exact ⟨h.deepens, h.nesting, Nat.le_trans h.height (Nat.add_le_add_left hle level), h.limit⟩

theorem here {node : Expr} (hallowed : ∀ limit, c.maxDepth = some limit →
    c.depth ≤ limit ∨ node.asLiteral? = none → c.depth ≤ limit) :
    (Moment.visited level node c).Lawful c level height :=
  ⟨Context.Deepens.refl c, rfl, Nat.le_add_right _ _, hallowed⟩

theorem of_deeper (hallowed : c.deeper.exceeded? = none) {m : Moment σ}
    (h : m.Lawful c.deeper (level + 1) height) : m.Lawful c level (1 + height) := by
  cases m with
  | passed d => exact Context.Deepens.of_deeper h
  | visited l node d =>
      have hdeeper : c.deeper.depth = c.depth + 1 := rfl
      have hnesting := h.nesting
      have hheight := h.height
      refine ⟨h.deepens.of_deeper, by omega, by omega, ?_⟩
      intro limit hlimit _
      exact h.limit limit hlimit (.inl (Context.depth_le_of_exceeded? hallowed hlimit))

end Moment.Lawful

/-- From the context `c`, the run restores the context, and all its moments are in `P`. -/
def Watched.Keeps (P : Moment σ → Prop) (c : Context σ) (x : Watched σ α) : Prop :=
  ∀ host, (x.run ⟨c, host⟩).state.context = c ∧ ∀ m ∈ x.log ⟨c, host⟩, P m

namespace Watched.Keeps

variable {P Q : Moment σ → Prop} {c : Context σ}

theorem pure (a : α) : (Pure.pure a : Watched σ α).Keeps P c :=
  fun _ => ⟨rfl, fun _ hm => by cases hm⟩

theorem step {run : Run (Evaluation σ) α} (hrun : ∀ host, (run ⟨c, host⟩).state.context = c)
    (hP : P (.passed c)) : (Watched.step run).Keeps P c := by
  intro host
  refine ⟨hrun host, fun m hm => ?_⟩
  rw [List.mem_singleton.mp hm, hrun host]
  exact hP

theorem visit {level : Nat} {node : Expr} (hP : P (.visited level node c)) :
    (Watched.visit level node).Keeps P c := by
  intro host
  refine ⟨rfl, fun m hm => ?_⟩
  rw [List.mem_singleton.mp hm]
  exact hP

theorem bind {x : Watched σ α} {next : α → Watched σ β} (h : x.Keeps P c)
    (hnext : ∀ a, (next a).Keeps P c) : (x >>= next).Keeps P c := by
  intro host
  obtain ⟨hcontext, hlog⟩ := h host
  have hstate : (x.run ⟨c, host⟩).state = ⟨c, (x.run ⟨c, host⟩).state.host⟩ :=
    congrArg (Evaluation.mk · (x.run ⟨c, host⟩).state.host) hcontext
  obtain ⟨hcontext', hlog'⟩ := hnext (x.run ⟨c, host⟩).result (x.run ⟨c, host⟩).state.host
  rw [← hstate] at hcontext' hlog'
  refine ⟨hcontext', fun m hm => ?_⟩
  rcases List.mem_append.mp hm with hm | hm
  · exact hlog m hm
  · exact hlog' m hm

theorem bindExcept {x : Watch σ α} {next : α → Watch σ β} (h : x.run.Keeps P c)
    (hnext : ∀ a, (next a).run.Keeps P c) : (x >>= next).run.Keeps P c := by
  rw [ExceptT.run_bind]
  refine h.bind fun outcome => ?_
  cases outcome with
  | ok a => exact hnext a
  | error e => exact Keeps.pure _

end Watched.Keeps

namespace Watch

theorem enter_log (c : Context σ) (host : σ) :
    (Eval.enter : Watch σ Unit).run.log ⟨c, host⟩ =
      match c.deeper.exceeded? with
      | some _ => [.passed c, .passed c.deeper, .passed c]
      | none => [.passed c, .passed c.deeper] := by
  have hlog : (Eval.enter : Watch σ Unit).run.log ⟨c, host⟩ =
      .passed c :: .passed c.deeper ::
        (match c.deeper.exceeded? with
          | some limit => do
              Eval.step (ExceptT.lift Eval.leave)
              throw (.depthLimitExceeded limit)
          | none => pure () : Watch σ Unit).run.log ⟨c.deeper, host⟩ := rfl
  rw [hlog]
  cases c.deeper.exceeded? with
  | some limit => rfl
  | none => rfl

theorem nested_log (c : Context σ) (host : σ) (x : Watch σ α) :
    (Eval.nested x).run.log ⟨c, host⟩ =
      match c.deeper.exceeded? with
      | some _ => [.passed c, .passed c.deeper, .passed c]
      | none =>
          [.passed c, .passed c.deeper] ++ (x.run.log ⟨c.deeper, host⟩ ++
            [.passed (x.run.run ⟨c.deeper, host⟩).state.context.leave]) := by
  have henter : (Eval.enter : Watch σ Unit).run.run ⟨c, host⟩ = (Eval.enter : Eval σ Unit).run ⟨c, host⟩ :=
    congrArg (fun y : Eval σ Unit => y.run ⟨c, host⟩) unwatched_enter
  rw [Eval.nested, ExceptT.run_bind, Watched.log_bind, henter, Eval.enter_run, enter_log]
  cases c.deeper.exceeded? with
  | some limit => rfl
  | none => rfl

theorem nested_run (c : Context σ) (host : σ) (x : Watch σ α) :
    (Eval.nested x).run.run ⟨c, host⟩ =
      match c.deeper.exceeded? with
      | some limit => ⟨.error (.depthLimitExceeded limit), [], ⟨c, host⟩⟩
      | none =>
          let ran := x.run.run ⟨c.deeper, host⟩
          ⟨ran.result, ran.events, { ran.state with context := ran.state.context.leave }⟩ :=
  (congrArg (fun y : Eval σ α => y.run ⟨c, host⟩) (unwatched_nested x)).trans
    (Eval.nested_run c host x.unwatched)

theorem visit_log (level : Nat) (node : Expr) (x : Watch σ α) (s : Evaluation σ) :
    (Eval.visit level node >>= fun _ => x).run.log s =
      .visited level node s.context :: x.run.log s := rfl

end Watch

namespace Watched.Keeps

variable {P Q : Moment σ → Prop} {c : Context σ}

theorem nested {x : Watch σ α} (hc : P (.passed c)) (hdeeper : P (.passed c.deeper))
    (h : c.deeper.exceeded? = none → x.run.Keeps Q c.deeper ∧ ∀ m, Q m → P m) :
    (Eval.nested x).run.Keeps P c := by
  intro host
  rw [Watch.nested_run, Watch.nested_log]
  cases hexceeded : c.deeper.exceeded? with
  | some limit =>
      refine ⟨rfl, fun m hm => ?_⟩
      rcases List.mem_cons.mp hm with rfl | hm
      · exact hc
      · rcases List.mem_cons.mp hm with rfl | hm
        · exact hdeeper
        · rw [List.mem_singleton.mp hm]
          exact hc
  | none =>
      obtain ⟨hkeeps, hQ⟩ := h hexceeded
      obtain ⟨hcontext, hlog⟩ := hkeeps host
      have hleave : (x.run.run ⟨c.deeper, host⟩).state.context.leave = c := by
        rw [hcontext, Context.leave_deeper]
      refine ⟨hleave, fun m hm => ?_⟩
      rcases List.mem_append.mp hm with hdown | hm
      · rcases List.mem_cons.mp hdown with rfl | hdown
        · exact hc
        · rw [List.mem_singleton.mp hdown]
          exact hdeeper
      · rcases List.mem_append.mp hm with hinside | hup
        · exact hQ m (hlog m hinside)
        · rw [List.mem_singleton.mp hup, hleave]
          exact hc

section Operands

variable {es : List Expr} {level : Nat}
  (h : ∀ e ∈ es, ∀ data, (e.watched level data).run.Keeps P c) (hc : P (.passed c))

include h

theorem all (data : Value) : (Eval.all data (Expr.watchedAll es level)).run.Keeps P c := by
  induction es with
  | nil => exact Keeps.pure _
  | cons e es ih =>
      refine (h e List.mem_cons_self data).bindExcept fun v => ?_
      refine (ih fun d hd => h d (List.mem_cons_of_mem e hd)).bindExcept fun vs => ?_
      exact Keeps.pure _

theorem at? (i : Nat) (data : Value) :
    (Eval.at? (Expr.watchedAll es level) i data).Keeps P c := by
  rw [Expr.watchedAll_eq_map, Eval.at?, List.getElem?_map]
  cases hi : es[i]? with
  | none => exact Keeps.pure _
  | some e => exact h e (List.mem_of_getElem? hi) data

include hc

theorem script (args : List Expr) (s : Script σ α) :
    (Eval.script args (Expr.watchedAll es level) s).Keeps P c := by
  have hget : (Watched.step (Run.get : Run (Evaluation σ) (Evaluation σ))).Keeps P c :=
    step (fun _ => rfl) hc
  induction s with
  | done a => exact Keeps.pure a
  | evaluate i data next ih => exact (at? h i data).bind ih
  | quote i next ih => exact ih _
  | isRegistered name next ih => exact hget.bind fun s => ih _
  | perform action next ih =>
      have haction : (Watched.step (Eval.ofHost action)).Keeps P c := step (fun _ => rfl) hc
      exact haction.bind fun _ => hget.bind fun s => ih _

theorem operate (args : List Expr) (data : Value) (operator : Operator σ) :
    (Eval.operate args (Expr.watchedAll es level) data operator).run.Keeps P c := by
  cases operator with
  | eager run => exact (all h data).bindExcept fun values => step (fun _ => rfl) hc
  | lazy run => exact script h hc args (run args.length data).run

theorem apply (site : CallSite) (args : List Expr) (data : Value) :
    (Eval.apply site args (Expr.watchedAll es level) data).run.Keeps P c := by
  rw [Eval.apply]
  have hread : (Eval.step Eval.context : Watch σ (Context σ)).run.Keeps P c :=
    step (fun _ => rfl) hc
  refine hread.bindExcept fun d => ?_
  cases d.operator? site with
  | none => exact Keeps.pure _
  | some operator =>
      have hemit : (Eval.step (Eval.emit (.applied site.name args.length)) : Watch σ Unit).run.Keeps
          P c := step (fun _ => rfl) hc
      exact hemit.bindExcept fun _ => operate h hc args data operator

end Operands

end Watched.Keeps

theorem Expr.keeps_watched (e : Expr) : ∀ (c : Context σ) (level : Nat) (data : Value),
    (e.watched level data).run.Keeps (Moment.Lawful c level e.depth) c := by
  -- A child begins one level deeper, in the context and in the tree alike.
  have hchildren : ∀ {es : List Expr} {c : Context σ} {level : Nat},
      (∀ e ∈ es, ∀ (c : Context σ) (level : Nat) (data : Value),
        (e.watched level data).run.Keeps (Moment.Lawful c level e.depth) c) →
      ∀ e ∈ es, ∀ data,
        (e.watched (level + 1) data).run.Keeps
          (Moment.Lawful c.deeper (level + 1) (depthOfAll es)) c.deeper := by
    intro es c level h e he data host
    obtain ⟨hcontext, hlog⟩ := h e he c.deeper (level + 1) data host
    exact ⟨hcontext, fun m hm => (hlog m hm).mono (depth_le_depthOfAll he)⟩
  have hnested : ∀ {c : Context σ} {level height : Nat} {node : Expr} {x : Watch σ Value},
      x.run.Keeps (Moment.Lawful c.deeper (level + 1) height) c.deeper →
      (Eval.nested do
        Eval.visit (level + 1) node
        x).run.Keeps (Moment.Lawful c level (1 + height)) c := by
    intro c level height node x hx
    refine Watched.Keeps.nested (Context.Deepens.refl c) (Context.Deepens.deeper c) fun hallowed =>
      ⟨?_, fun m hm => Moment.Lawful.of_deeper hallowed hm⟩
    have hvisit : (Watched.visit (level + 1) node).Keeps
        (Moment.Lawful c.deeper (level + 1) height) c.deeper :=
      Watched.Keeps.visit (Moment.Lawful.here fun limit hlimit _ =>
        Context.depth_le_of_exceeded? hallowed hlimit)
    exact (hvisit.bind fun _ => Watched.Keeps.pure _).bindExcept fun _ => hx
  induction e with
  | literal v =>
      intro c level data
      have hvisit : (Watched.visit level (literal v)).Keeps (Moment.Lawful c level 0) c := by
        refine Watched.Keeps.visit (Moment.Lawful.here fun limit _ h => ?_)
        rcases h with h | h
        · exact h
        · cases h
      exact (hvisit.bind fun _ => Watched.Keeps.pure _).bindExcept fun _ => Watched.Keeps.pure _
  | array items ih =>
      intro c level data
      refine hnested ((Watched.Keeps.all (hchildren ih) data).bindExcept fun values => ?_)
      exact Watched.Keeps.pure _
  | call site args ih =>
      intro c level data
      exact hnested (Watched.Keeps.apply (hchildren ih) (Context.Deepens.refl _) site args data)

def Evaluation.inTurn : (runs : List (Expr × Value)) → Evaluation σ →
    List (Ran (Evaluation σ) (Except Error Value))
  | [], _ => []
  | (e, data) :: rest, s =>
      let ran := (e.evaluate data).run s
      ran :: inTurn rest ran.state

/-- Evaluates one tree after the other, each with the context anew; only the host is handed on. -/
def Context.eachAnew (c : Context σ) : (runs : List (Expr × Value)) → (host : σ) →
    List (Ran (Evaluation σ) (Except Error Value))
  | [], _ => []
  | (e, data) :: rest, host =>
      let ran := (e.evaluate data).run ⟨c, host⟩
      ran :: c.eachAnew rest ran.state.host

theorem Evaluation.inTurn_eq_eachAnew (c : Context σ) (runs : List (Expr × Value)) (host : σ) :
    inTurn runs ⟨c, host⟩ = c.eachAnew runs host := by
  induction runs generalizing host with
  | nil => rfl
  | cons run rest ih =>
      obtain ⟨e, data⟩ := run
      rw [inTurn, Context.eachAnew, e.actsAs_evaluate c data host]
      exact congrArg (_ :: ·) (ih _)

/-- An evaluation leaves the context as it was, however it ends and whatever the operators make of the
failures they get.  At every step in between the context is at least as deep as at the start and the
same otherwise, and no node is evaluated beyond the limit.  So in any sequence of runs with a shared
context, each is what it is with a new one. -/
theorem Context.evaluate_restores :
    (∀ (c : Context σ) (host : σ) (e : Expr) (data : Value) (level : Nat),
      ((e.evaluate data).run ⟨c, host⟩).state.context = c ∧
      Watch.unwatched (e.watched level data) = (e.evaluate data : Eval σ Value) ∧
      (∀ d, .passed d ∈ (e.watched level data).run.log ⟨c, host⟩ →
        d.registry = c.registry ∧ d.bound = c.bound ∧ d.maxDepth = c.maxDepth ∧
          c.depth ≤ d.depth) ∧
      (∀ l node d, .visited l node d ∈ (e.watched level data).run.log ⟨c, host⟩ →
        ∀ limit, c.maxDepth = some limit → c.depth ≤ limit ∨ node.asLiteral? = none →
          d.depth ≤ limit)) ∧
    (∀ (r : Registry σ) (rule : CompiledRule) (maxDepth : Option Nat) (host : σ)
      (runs : List (Expr × Value)),
      Evaluation.inTurn runs ⟨Context.new r rule maxDepth, host⟩ =
        (Context.new r rule maxDepth).eachAnew runs host) := by
  refine ⟨fun c host e data level => ?_, fun r rule maxDepth host runs =>
    Evaluation.inTurn_eq_eachAnew _ runs host⟩
  obtain ⟨_, hlog⟩ := e.keeps_watched c level data host
  refine ⟨?_, e.unwatched_watched level data, fun d hd => ?_, fun l node d hd => ?_⟩
  · rw [e.actsAs_evaluate c data host]
    rfl
  · have hdeepens : c.Deepens d := hlog _ hd
    exact ⟨hdeepens.registry, hdeepens.bound, hdeepens.maxDepth, hdeepens.depth⟩
  · have hvisit : c.Visit level e.depth l node d := hlog _ hd
    exact hvisit.limit

end JsonRules
