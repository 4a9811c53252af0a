import JsonRules.Proofs.Evaluation.Lookup
import JsonRules.Proofs.Operator.Builtin

/-!
# The standard registry by names

No two built-in operators share a name, so the standard registry has each of them under all of its
names.  In a context made for a compiled rule the calls find the built-in operators of their names.
-/

namespace JsonRules

variable {σ : Type}

namespace Builtin

/-- All names of the built-in operators. -/
def names : List String :=
  ["var", "missing", "missing_some", "and", "or", "!", "!!", "?:", "if", "==", "!=", "===", "!==",
    ">", ">=", "<", "<=", "+", "-", "*", "/", "%", "min", "max", "cat", "substr", "merge", "in",
    "map", "filter", "reduce", "all", "some", "none", "log"]

theorem map_fst_registrations :
    (definitions.flatMap (Definition.registrations (σ := σ))).map Prod.fst = names := rfl

/-- The name under which an operator of that name or other spelling is defined. -/
def mainName (name : String) : String := if name = "?:" then "if" else name

theorem mainName_eq {d : Definition σ} (hd : d ∈ definitions) {name : String}
    (hname : name ∈ d.aliases ++ [d.name]) : mainName name = d.name := by
  have hunit : (definitions (σ := σ)).map (fun d => (d.name, d.aliases)) =
      (definitions (σ := Unit)).map (fun d => (d.name, d.aliases)) := rfl
  have hspellings : ∀ p ∈ (definitions (σ := Unit)).map (fun d => (d.name, d.aliases)),
      ∀ name ∈ p.2 ++ [p.1], mainName name = p.1 := by decide
  rw [← hunit] at hspellings
  exact hspellings (d.name, d.aliases) (List.mem_map_of_mem hd) name hname

end Builtin

/-- What the calls of the tree find in the context are built-in operators, of names in `P`. -/
def Context.FindsOnly (c : Context σ) (P : String → Prop) (e : Expr) : Prop :=
  ∀ site ∈ e.sites, ∀ operator, c.operator? site = some operator →
    ∃ d ∈ Builtin.definitions, d.operator = operator ∧ P d.name

namespace Registry.IsStandard

variable {r s : Registry σ} {name : String} {v : Value} {rule : CompiledRule}

theorem lookup?_eq_some_iff (h : r.IsStandard) {operator : Operator σ} :
    r.lookup? name = some operator ↔
      ∃ d ∈ Builtin.definitions, name ∈ d.aliases ++ [d.name] ∧ d.operator = operator := by
  have hdistinct : Entries.Distinct (Builtin.definitions.flatMap
      (Definition.registrations (σ := σ))).reverse := by
    rw [Entries.Distinct, Entries.keys, List.map_reverse, Builtin.map_fst_registrations]
    decide
  rw [h.eq_insertDefinitions, registerAll_registrations, lookup?_registerAll_withId,
    Entries.lookup_eq_some_iff hdistinct, List.mem_reverse, List.mem_flatMap]
  exact exists_congr fun d => and_congr_right fun _ => Definition.mem_registrations

theorem plain_of_lookup? (h : r.IsStandard) {operator : Operator σ}
    (hlookup : r.lookup? name = some operator) : operator.Plain (Error.ReportedBy name) := by
  obtain ⟨d, hd, hname, rfl⟩ := h.lookup?_eq_some_iff.mp hlookup
  exact Builtin.plain_of_mem_definitions hd hname

/-- A call of a compiled rule finds the built-in operator of its name. -/
theorem operator?_eq_some_iff (hr : r.IsStandard) (hs : s.IsStandard)
    (h : r.compiled v = .ok rule) {site : CallSite} (hsite : site ∈ rule.root.sites)
    (maxDepth : Option Nat) {operator : Operator σ} :
    (Context.new s rule maxDepth).operator? site = some operator ↔
      ∃ d ∈ Builtin.definitions, site.name ∈ d.aliases ++ [d.name] ∧ d.operator = operator := by
  rw [operator?_eq_lookup? (hr.later hs) h hsite rfl rfl, hs.lookup?_eq_some_iff]

theorem findsOnly (hr : r.IsStandard) (hs : s.IsStandard) (h : r.compiled v = .ok rule)
    {P : String → Prop} (hnames : ∀ site ∈ rule.root.sites, P (Builtin.mainName site.name))
    (maxDepth : Option Nat) :
    (Context.new s rule maxDepth).FindsOnly P rule.root := by
  intro site hsite operator hoperator
  obtain ⟨d, hd, hname, rfl⟩ := (hr.operator?_eq_some_iff hs h hsite maxDepth).mp hoperator
  exact ⟨d, hd, rfl, Builtin.mainName_eq hd hname ▸ hnames site hsite⟩

end Registry.IsStandard

end JsonRules
