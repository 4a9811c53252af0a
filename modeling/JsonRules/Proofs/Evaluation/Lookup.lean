import JsonRules.Proofs.Evaluation.Agreement
import JsonRules.Proofs.Evaluation.Restored
import JsonRules.Proofs.Registry.Registrations
import JsonRules.Proofs.Rule.Compiled

/-!
# Remembered slots and names

A slot remembered in a rule is used only in the registry that gave it, and there it is the slot of the
name still.  So a rule evaluates as if every operator were looked up by its name at that moment, with
whatever registry and whatever has happened to the registries since the rule was compiled.
-/

namespace JsonRules

variable {σ : Type}

namespace Registry

/-- All calls looked up by name, and the slots they remember ignored. -/
def byName (r : Registry σ) (maxDepth : Option Nat) : Environment σ where
  operator site := site.found (r.lookup? site.name)
  isRegistered := r.contains
  maxDepth

variable {r s : Registry σ} {v : Value} {rule : CompiledRule}

/-- The slot that a call remembers leads to the operator of its name. -/
theorem operator?_eq_lookup? (hlater : s.id = r.id → r.Later s) (h : r.compiled v = .ok rule)
    {site : CallSite} (hsite : site ∈ rule.root.sites) {c : Context σ} (hregistry : c.registry = s)
    (hbound : c.bound = (rule.registryId == s.id)) :
    c.operator? site = s.lookup? site.name := by
  have hslot := slot_of_compiled h hsite
  rw [Context.operator?, hregistry, hslot]
  cases hr : r.resolve? site.name with
  | none => rfl
  | some slot =>
      dsimp only
      by_cases hid : s.id = r.id
      · -- The registry that gave the slot: the name has it still.
        have hs := (hlater hid).resolve?_eq hr
        rw [lookup?, hs]
        cases c.bound with
        | true => rfl
        | false => rfl
      · -- Any other registry: the context is not bound, and the slot is passed over.
        have hfalse : c.bound = false := by
          rw [hbound, (ofRule_of_compiled h).2]
          exact beq_false_of_ne (Ne.symm hid)
        rw [hfalse]
        rfl

theorem evaluate_eq_byName (hlater : s.id = r.id → r.Later s) (h : r.compiled v = .ok rule)
    (maxDepth : Option Nat) (data : Value) :
    s.evaluate rule maxDepth data =
      (rule.root.meaning (s.byName maxDepth) 0 data).run := by
  have hagrees : ∀ site ∈ rule.root.sites,
      (Context.new s rule maxDepth).environment.AgreesAt (s.byName maxDepth) site := by
    intro site hsite
    refine ⟨?_, fun operator _ => Operator.asksOnly_of_forall (fun _ => rfl) operator⟩
    exact congrArg site.found (operator?_eq_lookup? hlater h hsite rfl rfl)
  have hmeaning : rule.root.meaning (Context.new s rule maxDepth).environment =
      rule.root.meaning (s.byName maxDepth) := Expr.meaning_congr (by rfl) rule.root hagrees
  rw [evaluate_eq_meaning, hmeaning]

end Registry

/-! ### An operator that looks at the registry -/

/-- Tells whether the text of its operand is the name of an operator. -/
def known : Operator σ :=
  .lazy fun _ data => do
    match ← LazyScript.evaluate 0 data with
    | .string name => return .bool (← LazyScript.isRegistered name)
    | _ => return .null

end JsonRules
