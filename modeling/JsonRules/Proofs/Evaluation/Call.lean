import JsonRules.Proofs.Evaluation.Answer
import JsonRules.Proofs.Evaluation.Standard

/-!
# Calls of built-in operators

A call goes one level deeper, records that its operator is applied, and then does what the operator does
with the operands.  Which operator that is, is said by the name of a built-in one that the context finds
for the call, whatever else there is in its registry.
-/

namespace JsonRules

variable {σ : Type}

namespace Builtin

variable {d other : Definition σ}

theorem eq_of_name_eq (hd : d ∈ definitions) (hother : other ∈ definitions)
    (hname : d.name = other.name) : d = other := by
  have hunit : (definitions (σ := σ)).map Definition.name =
      (definitions (σ := Unit)).map Definition.name := rfl
  have hnodup : ((definitions (σ := σ)).map Definition.name).Nodup := by
    rw [hunit]
    decide
  exact List.inj_on_of_nodup_map hnodup hd hother hname

theorem mem_definitions_of_mem_arrayFamily (hd : d ∈ arrayFamily) : d ∈ definitions := by
  rw [definitions]
  exact List.mem_append_left _ (List.mem_append_right _ hd)

end Builtin

/-- A call at the root whose operator is looked up by its name. -/
def CallSite.named (name : String) : CallSite := ⟨name, none, .root⟩

namespace Context

/-- For the call the context finds the built-in operator of the name. -/
def Finds (c : Context σ) (site : CallSite) (name : String) : Prop :=
  ∃ d ∈ Builtin.definitions, d.name = name ∧ c.operator? site = some d.operator

variable {c : Context σ} {site : CallSite}

theorem Finds.operator?_eq {d : Definition σ} (h : c.Finds site d.name)
    (hd : d ∈ Builtin.definitions) : c.operator? site = some d.operator := by
  obtain ⟨other, hother, hname, hoperator⟩ := h
  rw [hoperator, Builtin.eq_of_name_eq hother hd hname]

/-- What is found for the name of a lazy operator on arrays. -/
theorem Finds.lazily_eq {name : String} {f : Nat → Value → LazyScript σ Value}
    (h : c.Finds site name) (hmem : Builtin.lazily name [] f ∈ Builtin.arrayFamily) :
    c.operator? site = some (.lazy f) :=
  Finds.operator?_eq (d := Builtin.lazily name [] f) h
    (Builtin.mem_definitions_of_mem_arrayFamily hmem)

theorem finds_named (hc : c.registry.IsStandard) {name : String} (hname : name ∈ Builtin.names) :
    c.Finds (.named name) (Builtin.mainName name) := by
  rw [← Builtin.map_fst_registrations (σ := σ), List.mem_map] at hname
  obtain ⟨registration, hmem, hfst⟩ := hname
  obtain ⟨d, hd, hregistration⟩ := List.mem_flatMap.mp hmem
  have hspelling := (Definition.mem_registrations.mp hregistration).1
  rw [hfst] at hspelling
  refine ⟨d, hd, (Builtin.mainName_eq hd hspelling).symm, ?_⟩
  exact hc.lookup?_eq_some_iff.mpr ⟨d, hd, hspelling, rfl⟩

/-- The context of a rule for the standard registry. -/
def standard (maxDepth : Option Nat) : Context Unit :=
  ⟨(Builtin.registry.run .initial).1, true, 0, maxDepth⟩

theorem finds_standard (name : String) (hname : name ∈ Builtin.names ∧ Builtin.mainName name = name)
    (maxDepth : Option Nat) : (standard maxDepth).Finds (.named name) name := by
  have hc : (standard maxDepth).registry.IsStandard := by
    simpa only [standard] using Registry.isStandard_registry .initial
  have hfinds := finds_named hc hname.1
  rwa [hname.2] at hfinds

end Context

open JsonRules.Environment

namespace Expr

theorem meaning_call_of_operator {env : Environment σ} {site : CallSite} {operator : Operator σ}
    (h : env.operator site = .ok operator) (args : List Expr) (depth : Nat) (data : Value) :
    (call site args).meaning env depth data =
      env.nested (depth + 1) (do
        ExceptT.lift (Run.emit (.applied site.name args.length))
        env.run args (meanings env args (depth + 1)) data operator) := by
  rw [meaning_call, apply, h]

end Expr

namespace Context

/-- What a call does for which the operator is found: it fails at once if it is too deep, else it
records that the operator is applied, which then goes to work. -/
theorem run_call {c : Context σ} {site : CallSite} {operator : Operator σ}
    (h : c.operator? site = some operator) (args : List Expr) (data : Value) (host : σ) :
    ((Expr.call site args).evaluate data).run ⟨c, host⟩ =
      match c.deeper.exceeded? with
      | some limit => ⟨.error (.depthLimitExceeded limit), [], ⟨c, host⟩⟩
      | none =>
          let operands := Expr.meanings c.environment args (c.depth + 1)
          let ran := (c.environment.run args operands data operator).run host
          ⟨ran.result, .applied site.name args.length :: ran.events, ⟨c, ran.state⟩⟩ := by
  have hlimit : c.environment.maxDepth.filter (· < c.depth + 1) = c.deeper.exceeded? := rfl
  rw [(Expr.call site args).actsAs_evaluate c data host,
    Expr.meaning_call_of_operator (CallSite.found_eq_ok.mpr h), nested, hlimit]
  cases c.deeper.exceeded? with
  | some limit => rfl
  | none => rfl

end Context

end JsonRules
