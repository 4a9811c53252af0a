import JsonRules.Proofs.Evaluation.Depth
import JsonRules.Proofs.Evaluation.Normalized

/-!
# Limits on nesting

With operators that go through with failures, a limit on nesting does nothing but end the evaluation
when it comes to an array or call beyond the limit.  Until then it goes on as without a limit, so what
has been recorded by then is how the unlimited evaluation begins too.
-/

namespace JsonRules

variable {σ α β : Type}

/-- The evaluation has come to an array or call inside too many others. -/
def Moment.IsBeyond (limit : Nat) : Moment σ → Prop
  | passed _ => False
  | visited level node _ => node.asLiteral? = none ∧ limit < level

theorem Moment.not_isBeyond_of_mem_passed {limit : Nat} {c : Context σ} :
    ∀ m ∈ [passed c], ¬m.IsBeyond limit := by
  intro m hm
  rw [List.mem_singleton.mp hm]
  exact id

def Context.limited (c : Context σ) (limit : Nat) : Environment σ :=
  { c.environment with maxDepth := some limit }

/-- What a run from the context leaves, against what one with the limit leaves.  Either the first came
to nothing beyond the limit and both did the same, or it did, and the second began as the first and
failed at the limit. -/
def Ran.CutTo (limit : Nat) (c : Context σ) (log : List (Moment σ))
    (free : Ran (Evaluation σ) (Except Error α)) (cut : Ran σ (Except Error α)) : Prop :=
  (∀ m ∈ log, ¬m.IsBeyond limit) ∧ free = cut.within c ∨
    (∃ m ∈ log, m.IsBeyond limit) ∧ free.state.context = c ∧
      cut.result = .error (.depthLimitExceeded limit) ∧ cut.events <+: free.events

namespace Ran.CutTo

variable {limit : Nat} {c : Context σ} {log : List (Moment σ)}
  {free : Ran (Evaluation σ) (Except Error α)} {cut : Ran σ (Except Error α)}

theorem refl (ran : Ran σ (Except Error α)) : CutTo limit c [] (ran.within c) ran :=
  .inl ⟨fun _ hm => absurd hm List.not_mem_nil, rfl⟩

theorem context_eq (h : CutTo limit c log free cut) : free.state.context = c := by
  rcases h with ⟨_, rfl⟩ | ⟨_, hcontext, _⟩
  · rfl
  · exact hcontext

theorem prepend (h : CutTo limit c log free cut) {first : List (Moment σ)}
    (hfirst : ∀ m ∈ first, ¬m.IsBeyond limit) (events : List Event) :
    CutTo limit c (first ++ log) ⟨free.result, events ++ free.events, free.state⟩
      ⟨cut.result, events ++ cut.events, cut.state⟩ := by
  rcases h with ⟨hlog, rfl⟩ | ⟨⟨m, hm, hbeyond⟩, hcontext, hresult, hevents⟩
  · refine .inl ⟨fun m hm => ?_, rfl⟩
    rcases List.mem_append.mp hm with hm | hm
    · exact hfirst m hm
    · exact hlog m hm
  · exact .inr ⟨⟨m, List.mem_append_right first hm, hbeyond⟩, hcontext, hresult,
      (List.prefix_append_right_inj events).mpr hevents⟩

theorem leave (h : CutTo limit c.deeper log free cut) {first last : List (Moment σ)}
    (hfirst : ∀ m ∈ first, ¬m.IsBeyond limit) (hlast : ∀ m ∈ last, ¬m.IsBeyond limit) :
    CutTo limit c (first ++ (log ++ last))
      ⟨free.result, free.events, { free.state with context := free.state.context.leave }⟩ cut := by
  have hleave : free.state.context.leave = c := by rw [h.context_eq, Context.leave_deeper]
  rcases h with ⟨hlog, rfl⟩ | ⟨⟨m, hm, hbeyond⟩, _, hresult, hevents⟩
  · refine .inl ⟨fun m hm => ?_, rfl⟩
    rcases List.mem_append.mp hm with hm | hm
    · exact hfirst m hm
    · rcases List.mem_append.mp hm with hm | hm
      · exact hlog m hm
      · exact hlast m hm
  · exact .inr ⟨⟨m, List.mem_append_right first (List.mem_append_left last hm), hbeyond⟩, hleave,
      hresult, hevents⟩

end Ran.CutTo

theorem Watch.script_evaluate {args : List Expr} {operands : List (Operand σ)} {i : Nat}
    {data : Value} {next : Except Error Value → Script σ (Except Error α)}
    (h : ∀ e, next (.error e) = .done (.error e)) :
    Eval.script args operands (.evaluate i data next) =
      (ExceptT.mk (Eval.at? operands i data) >>= fun v =>
        ExceptT.mk (Eval.script args operands (next (.ok v)))).run := by
  rw [Eval.script, ExceptT.run_bind]
  refine bind_congr fun outcome => ?_
  cases outcome with
  | ok v => rfl
  | error e =>
      rw [h e]
      rfl

/-- From the context on and from every state of the host, `y` is `x` with the limit. -/
def Watch.CutTo (limit : Nat) (c : Context σ) (x : Watch σ α) (y : Action σ α) : Prop :=
  ∀ host, Ran.CutTo limit c (x.run.log ⟨c, host⟩) (x.run.run ⟨c, host⟩) (y.run host)

namespace Watch.CutTo

variable {limit : Nat} {c : Context σ}

theorem pure (outcome : Except Error α) :
    CutTo limit c (ExceptT.mk (Pure.pure outcome)) (ExceptT.mk (Pure.pure outcome)) :=
  fun host => Ran.CutTo.refl ⟨outcome, [], host⟩

theorem keeps {x : Watch σ α} {y : Action σ α} (h : CutTo limit c x y) :
    x.run.Keeps (fun _ => True) c :=
  fun host => ⟨(h host).context_eq, fun _ _ => trivial⟩

theorem step {run : Run (Evaluation σ) (Except Error α)} {first : Run σ (Except Error α)}
    (hrun : ActsAs c run first) :
    CutTo limit c (ExceptT.mk (Watched.step run)) (ExceptT.mk first) := by
  intro host
  exact .inl ⟨Moment.not_isBeyond_of_mem_passed, hrun host⟩

theorem after_step {run : Run (Evaluation σ) β} {first : Run σ β} (hrun : ActsAs c run first)
    (next : β → Watch σ α) (after : β → Action σ α)
    (h : ∀ host, CutTo limit c (next (first host).result) (after (first host).result)) :
    CutTo limit c (ExceptT.mk (Watched.step run >>= fun b => (next b).run))
      (ExceptT.mk (first >>= fun b => (after b).run)) := by
  intro host
  have hstep : (Watched.step run).run ⟨c, host⟩ = (first host).within c := hrun host
  change Ran.CutTo limit c ([.passed ((Watched.step run).run ⟨c, host⟩).state.context] ++ _)
    ⟨_, _ ++ _, _⟩ ⟨_, _, _⟩
  rw [hstep]
  exact (h host (first host).state).prepend Moment.not_isBeyond_of_mem_passed (first host).events

theorem after_get (next : Evaluation σ → Watch σ α) (after : σ → Action σ α)
    (h : ∀ host, CutTo limit c (next ⟨c, host⟩) (after host)) :
    CutTo limit c (ExceptT.mk (Watched.step Run.get >>= fun s => (next s).run))
      (ExceptT.mk (Run.get >>= fun s => (after s).run)) := by
  have hget : ActsAs c Run.get fun host => ⟨⟨c, host⟩, [], host⟩ := fun _ => rfl
  exact after_step hget next (fun s => after s.host) h

theorem bind {x : Watch σ α} {next : α → Watch σ β} {y : Action σ α} {after : α → Action σ β}
    (h : CutTo limit c x y) (hnext : ∀ a, CutTo limit c (next a) (after a)) :
    CutTo limit c (x >>= next) (y >>= after) := by
  intro host
  rw [ExceptT.run_bind, ExceptT.run_bind, Watched.log_bind, Run.bind_apply]
  change Ran.CutTo limit c _ ⟨_, _ ++ _, _⟩ _
  rcases h host with ⟨hlog, hrun⟩ | ⟨⟨m, hm, hbeyond⟩, hcontext, hresult, hevents⟩
  · rw [hrun]
    cases hy : (y.run host).result with
    | ok a =>
        dsimp only [Ran.within]
        rw [hy]
        exact (hnext a (y.run host).state).prepend hlog (y.run host).events
    | error e =>
        dsimp only [Ran.within]
        rw [hy]
        exact (Ran.CutTo.refl ⟨.error e, [], (y.run host).state⟩).prepend hlog (y.run host).events
  · -- The run with the limit is over; the other one goes on and can only record more.
    rw [hresult]
    refine .inr ⟨⟨m, List.mem_append_left _ hm, hbeyond⟩, ?_, rfl, ?_⟩
    · exact (h.keeps.bindExcept fun a => (hnext a).keeps) host |>.1
    · change (y.run host).events ++ [] <+: _
      rw [List.append_nil]
      exact hevents.trans (List.prefix_append _ _)

section Operands

variable {es : List Expr} {level : Nat}
  (h : ∀ e ∈ es, ∀ data,
    CutTo limit c (e.watched level data) (e.meaning (c.limited limit) level data))

include h

theorem all (data : Value) :
    CutTo limit c (Eval.all data (Expr.watchedAll es level))
      (Environment.values (Expr.meanings (c.limited limit) es level) data) := by
  induction es with
  | nil => exact CutTo.pure _
  | cons e es ih =>
      rw [Environment.values_meanings_cons]
      refine (h e List.mem_cons_self data).bind fun v => ?_
      refine (ih fun d hd => h d (List.mem_cons_of_mem e hd)).bind fun vs => ?_
      exact CutTo.pure _

theorem operand (i : Nat) (data : Value) :
    CutTo limit c (ExceptT.mk (Eval.at? (Expr.watchedAll es level) i data))
      (Environment.operand (Expr.meanings (c.limited limit) es level) i data) := by
  rw [Environment.operand_meanings, Eval.at?, Expr.watchedAll_eq_map, List.getElem?_map]
  cases hi : es[i]? with
  | none => exact CutTo.pure _
  | some e => exact h e (List.mem_of_getElem? hi) data

theorem script (args : List Expr) {s : Script σ (Except Error α)} (hs : s.Propagates) :
    CutTo limit c (ExceptT.mk (Eval.script args (Expr.watchedAll es level) s))
      (ExceptT.mk ((c.limited limit).script args (Expr.meanings (c.limited limit) es level) s)) := by
  induction s with
  | done outcome => exact CutTo.pure outcome
  | evaluate i data next ih =>
      -- By `hs.1` the script does not recover from a failure at the limit.
      rw [Watch.script_evaluate hs.1, Environment.script_evaluate hs.1]
      exact (operand h i data).bind fun v => ih (.ok v) (hs.2 v)
  | quote i next ih => exact ih _ (hs _)
  | isRegistered name next ih =>
      exact after_get (fun s => ExceptT.mk _)
        (fun _ => ExceptT.mk ((c.limited limit).script args _ (next (c.registry.contains name))))
        fun host => ih _ (hs _)
  | perform action next ih =>
      refine after_step (ActsAs.ofHost action) (fun _ => ExceptT.mk _) (fun _ => ExceptT.mk _) ?_
      intro _
      exact after_get (fun s => ExceptT.mk _) (fun s => ExceptT.mk _) fun host => ih host (hs host)

theorem operate {P : Error → Prop} {operator : Operator σ} (hoperator : operator.FailsFast P)
    (args : List Expr) (data : Value) :
    CutTo limit c (Eval.operate args (Expr.watchedAll es level) data operator)
      ((c.limited limit).run args (Expr.meanings (c.limited limit) es level) data operator) := by
  cases operator with
  | eager run => exact (all h data).bind fun values => step (ActsAs.ofHost (run values data))
  | lazy run => exact script h args (hoperator args.length data).propagates

theorem apply {P : Error → Prop} {site : CallSite}
    (hfast : ∀ operator, c.operator? site = some operator → operator.FailsFast P)
    (args : List Expr) (data : Value) :
    CutTo limit c (Eval.apply site args (Expr.watchedAll es level) data)
      ((c.limited limit).apply site args (Expr.meanings (c.limited limit) es level) data) := by
  have hoperator : (c.limited limit).operator site = site.found (c.operator? site) := rfl
  have hread : ActsAs c (Eval.context : Eval σ (Context σ)).run fun host => ⟨.ok c, [], host⟩ :=
    fun _ => rfl
  refine after_step hread (fun outcome => ExceptT.mk _)
    (fun _ => (c.limited limit).apply site args _ data) fun _ => ?_
  rw [Environment.apply, hoperator]
  dsimp only
  cases hc : c.operator? site with
  | none => exact CutTo.pure _
  | some operator =>
      have hemit : CutTo limit c (Eval.step (Eval.emit (.applied site.name args.length)))
          (ExceptT.lift (Run.emit (.applied site.name args.length))) := step (ActsAs.emit _)
      exact hemit.bind fun _ => operate h (hfast operator hc) args data

end Operands

theorem nested {level : Nat} {node : Expr} (hnode : node.asLiteral? = none)
    (hfree : c.maxDepth = none) {x : Watch σ Value} {y : Action σ Value}
    (h : CutTo limit c.deeper x y) :
    CutTo limit c
      (Eval.nested do
        Eval.visit (level + 1) node
        x)
      ((c.limited limit).nested (level + 1) y) := by
  intro host
  have hallowed : c.deeper.exceeded? = none := by
    have hmax : c.deeper.maxDepth = none := hfree
    rw [Context.exceeded?, hmax]
    rfl
  have hdown : ∀ m ∈ [Moment.passed c, .passed c.deeper], ¬m.IsBeyond limit := by
    intro m hm
    rcases List.mem_cons.mp hm with rfl | hm
    · exact id
    · exact Moment.not_isBeyond_of_mem_passed m hm
  have hmax : (c.limited limit).maxDepth = some limit := rfl
  rw [Watch.nested_run, Watch.nested_log, hallowed]
  dsimp only
  rw [Watch.visit_log, Environment.nested, hmax]
  by_cases hle : level + 1 ≤ limit
  · have hwithin : ∀ m ∈ [Moment.visited (level + 1) node c.deeper], ¬m.IsBeyond limit := by
      intro m hm
      rw [List.mem_singleton.mp hm]
      exact fun hbeyond => Nat.not_lt_of_le hle hbeyond.2
    have hfilter : (some limit).filter (· < level + 1) = none := by simp; omega
    rw [hfilter]
    exact ((h host).prepend hwithin []).leave hdown Moment.not_isBeyond_of_mem_passed
  · have hfilter : (some limit).filter (· < level + 1) = some limit := by simp; omega
    rw [hfilter]
    refine .inr ⟨⟨.visited (level + 1) node c.deeper, ?_, hnode, Nat.lt_of_not_le hle⟩, ?_, rfl,
      List.nil_prefix⟩
    · simp
    · change (x.run.run ⟨c.deeper, host⟩).state.context.leave = c
      rw [(h host).context_eq, Context.leave_deeper]

/-- A tree does with the limit what it does without, up to the first array or call beyond it. -/
theorem watched {P : Error → Prop} (limit : Nat) (e : Expr) : ∀ (c : Context σ) (data : Value),
    c.maxDepth = none →
    (∀ site operator, c.operator? site = some operator → operator.FailsFast P) →
    CutTo limit c (e.watched c.depth data) (e.meaning (c.limited limit) c.depth data) := by
  induction e with
  | literal v =>
      intro c data _ _ host
      refine .inl ⟨fun m hm => ?_, rfl⟩
      rw [List.mem_singleton.mp hm]
      rintro ⟨hnone, _⟩
      cases hnone
  | array items ih =>
      intro c data hfree hfast
      have hitems : ∀ e ∈ items, ∀ data, CutTo limit c.deeper (e.watched (c.depth + 1) data)
          (e.meaning (c.deeper.limited limit) (c.depth + 1) data) :=
        fun e he data => ih e he c.deeper data hfree hfast
      refine nested rfl hfree ?_
      rw [← bind_pure_comp]
      exact (all hitems data).bind fun values => CutTo.pure _
  | call site args ih =>
      intro c data hfree hfast
      have hargs : ∀ e ∈ args, ∀ data, CutTo limit c.deeper (e.watched (c.depth + 1) data)
          (e.meaning (c.deeper.limited limit) (c.depth + 1) data) :=
        fun e he data => ih e he c.deeper data hfree hfast
      exact nested rfl hfree (apply hargs (hfast site) args data)

end Watch.CutTo

namespace Registry

/-- Without a limit, the evaluation comes to an array or call inside more arrays and calls than the
limit allows, itself included. -/
def GoesBeyond (s : Registry σ) (rule : CompiledRule) (data : Value) (host : σ) (limit : Nat) :
    Prop :=
  ∃ m ∈ (rule.root.watched 0 data).run.log ⟨Context.new s rule none, host⟩, m.IsBeyond limit

variable {s : Registry σ} {rule : CompiledRule} {data : Value} {host : σ} {limit : Nat}

theorem GoesBeyond.of_le {more : Nat} (hle : limit ≤ more)
    (h : s.GoesBeyond rule data host more) : s.GoesBeyond rule data host limit := by
  obtain ⟨m, hm, hbeyond⟩ := h
  refine ⟨m, hm, ?_⟩
  cases m with
  | passed c => exact hbeyond
  | visited level node c => exact ⟨hbeyond.1, Nat.lt_of_le_of_lt hle hbeyond.2⟩

theorem GoesBeyond.lt_depth (h : s.GoesBeyond rule data host limit) : limit < rule.root.depth := by
  obtain ⟨m, hm, hbeyond⟩ := h
  have hlawful := (rule.root.keeps_watched (Context.new s rule none) 0 data host).2 m hm
  cases m with
  | passed c => exact hbeyond.elim
  | visited level node c =>
      have hlevel := hlawful.height
      rw [Nat.zero_add] at hlevel
      exact Nat.lt_of_lt_of_le hbeyond.2 hlevel

namespace OnlyBuiltin

/-- Built-in operators do not report the limit, so without a limit nothing does. -/
theorem evaluate_free_ne (hs : s.OnlyBuiltin) (rule : CompiledRule) (data : Value) (host : σ)
    (limit : Nat) :
    (s.evaluate rule none data host).result ≠ .error (.depthLimitExceeded limit) := by
  have hfails : Action.Fails (fun e => ∀ limit, e ≠ .depthLimitExceeded limit)
      (rule.root.meaning (Context.new s rule none).environment 0 data) := by
    refine Expr.meaning_fails (fun site _ operator hoperator => ?_) (fun site _ e he => ?_)
      (fun limit hlimit => ?_) 0 data
    · exact (hs.failsFast rfl hoperator).mono fun e he limit => he.ne_depthLimitExceeded limit
    · obtain ⟨_, rfl⟩ := CallSite.found_eq_error.mp he
      exact fun _ => nofun
    · cases hlimit
  rw [evaluate_eq_meaning]
  intro herror
  exact hfails host _ herror limit rfl

theorem evaluate_cut (hs : s.OnlyBuiltin) (rule : CompiledRule) (data : Value) (host : σ)
    (limit : Nat) :
    ¬s.GoesBeyond rule data host limit ∧
        s.evaluate rule (some limit) data host = s.evaluate rule none data host ∨
    s.GoesBeyond rule data host limit ∧
        (s.evaluate rule (some limit) data host).result = .error (.depthLimitExceeded limit) ∧
        (s.evaluate rule (some limit) data host).events <+:
          (s.evaluate rule none data host).events := by
  have hfree : s.evaluate rule none data host =
      ⟨((rule.root.watched 0 data).run.run ⟨Context.new s rule none, host⟩).result,
        ((rule.root.watched 0 data).run.run ⟨Context.new s rule none, host⟩).events,
        ((rule.root.watched 0 data).run.run ⟨Context.new s rule none, host⟩).state.host⟩ := by
    rw [evaluate, ← rule.root.unwatched_watched 0 data]
    rfl
  have hcut := Watch.CutTo.watched limit rule.root (Context.new s rule none) data rfl
    (fun _ _ hoperator => (hs.of_operator? rfl hoperator).failsFast) host
  have hlimited : s.evaluate rule (some limit) data host =
      (rule.root.meaning ((Context.new s rule none).limited limit) 0 data).run host := by
    rw [evaluate_eq_meaning]
    rfl
  rw [hlimited, hfree]
  rcases hcut with ⟨hlog, hrun⟩ | ⟨hbeyond, _, hresult, hevents⟩
  · have hsame : (rule.root.watched 0 data).run.run ⟨Context.new s rule none, host⟩ =
        ((rule.root.meaning ((Context.new s rule none).limited limit) 0 data).run host).within
          (Context.new s rule none) := hrun
    refine .inl ⟨?_, ?_⟩
    · rintro ⟨m, hm, hbeyond⟩
      exact hlog m hm hbeyond
    · rw [hsame]
      rfl
  · exact .inr ⟨hbeyond, hresult, hevents⟩

/-- A tree that is no deeper than the limit stays within it. -/
theorem evaluate_ne_of_depth_le (hs : s.OnlyBuiltin) (hdepth : rule.root.depth ≤ limit)
    (data : Value) (host : σ) :
    (s.evaluate rule (some limit) data host).result ≠ .error (.depthLimitExceeded limit) := by
  rcases hs.evaluate_cut rule data host limit with ⟨_, heq⟩ | ⟨hbeyond, _⟩
  · rw [heq]
    exact hs.evaluate_free_ne rule data host limit
  · exact absurd hbeyond.lt_depth (Nat.not_lt_of_le hdepth)

end OnlyBuiltin

/-- With the built-in operators, a limit on nesting changes nothing but that the evaluation fails when
it comes to an array or call beyond the limit, and what was recorded by then is how the unlimited run
begins.  A limit that is not below the depth of the tree is never met, and where one limit is not met,
a higher one makes no difference. -/
theorem evaluate_with_limit (hs : s.OnlyBuiltin) (rule : CompiledRule) (data : Value) (host : σ)
    (limit : Nat) :
    let free := s.evaluate rule none data host
    let cut := s.evaluate rule (some limit) data host
    (cut = free ∨
      cut.result = .error (.depthLimitExceeded limit) ∧ cut.events <+: free.events) ∧
    free.result ≠ .error (.depthLimitExceeded limit) ∧
    (cut.result = .error (.depthLimitExceeded limit) ↔ s.GoesBeyond rule data host limit) ∧
    (rule.root.depth ≤ limit → cut = free) ∧
    (cut.result ≠ .error (.depthLimitExceeded limit) →
      ∀ more, limit ≤ more → s.evaluate rule (some more) data host = cut) := by
  intro free cut
  have hne := hs.evaluate_free_ne rule data host limit
  have hcut := hs.evaluate_cut rule data host limit
  -- Without the limit nothing fails like this, so the failure tells which of the two has happened.
  have hiff : cut.result = .error (.depthLimitExceeded limit) ↔
      s.GoesBeyond rule data host limit := by
    rcases hcut with ⟨hwithin, heq⟩ | ⟨hbeyond, hresult, _⟩
    · refine ⟨fun hresult => absurd ?_ hne, fun hbeyond => absurd hbeyond hwithin⟩
      rw [← heq]
      exact hresult
    · exact ⟨fun _ => hbeyond, fun _ => hresult⟩
  have hsame : ∀ {limit : Nat}, ¬s.GoesBeyond rule data host limit →
      s.evaluate rule (some limit) data host = free := by
    intro limit hwithin
    rcases hs.evaluate_cut rule data host limit with ⟨_, heq⟩ | ⟨hbeyond, _⟩
    · exact heq
    · exact absurd hbeyond hwithin
  refine ⟨?_, hne, hiff, fun hdepth => ?_, fun hresult more hle => ?_⟩
  · rcases hcut with ⟨_, heq⟩ | ⟨_, hresult, hevents⟩
    · exact .inl heq
    · exact .inr ⟨hresult, hevents⟩
  · exact hsame fun hbeyond => Nat.not_lt_of_le hdepth hbeyond.lt_depth
  · have hwithin : ¬s.GoesBeyond rule data host limit := mt hiff.mpr hresult
    have hmore : ¬s.GoesBeyond rule data host more := fun hbeyond => hwithin (hbeyond.of_le hle)
    exact (hsame hmore).trans (hsame hwithin).symm

theorem evaluate_with_limit_standard :
    ∃ (s : Registry Unit) (rule : CompiledRule), s.OnlyBuiltin ∧
      s.compiled (.array [.object [("!", .bool true)]]) = .ok rule ∧
      s.GoesBeyond rule .null () 1 ∧
      s.evaluate rule (some 2) .null () = s.evaluate rule none .null () := by
  have hbuiltin := onlyBuiltin_standard (σ := Unit) .initial
  refine ⟨(Builtin.registry.run .initial).1, _, hbuiltin, rfl, ?_, ?_⟩
  · exact (evaluate_with_limit hbuiltin _ .null () 1).2.2.1.mp rfl
  · exact (evaluate_with_limit hbuiltin _ .null () 2).2.2.2.1 (by decide)

end Registry

end JsonRules
