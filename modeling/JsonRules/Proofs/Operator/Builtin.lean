import JsonRules.Builtin.Catalogue
import JsonRules.Proofs.Operator.Conduct
import JsonRules.Proofs.Registry.History

/-!
# Conduct of the built-in operators

Every built-in operator is plain: it does nothing to its operands but evaluate them, and it goes
through with the first failure of one.  What it adds are refused operands and missing ones, each of
which tells the name of the operator.  So neither a call without an operator nor a nesting too deep is
ever reported by an operator itself.
-/

namespace JsonRules

variable {σ : Type}

/-- The names of the operators that have no use for some operands. -/
def Builtin.refusing : List String := ["var", "missing", "missing_some", "substr"]

namespace Error

/-- The failures that a built-in operator may report by itself. -/
def IsOperatorFailure : Error → Prop
  | invalidArgument _ _ => True
  | evaluationFailed _ => True
  | _ => False

theorem IsOperatorFailure.ne_depthLimitExceeded {e : Error} (h : e.IsOperatorFailure)
    (limit : Nat) : e ≠ depthLimitExceeded limit := by
  rintro rfl
  exact h

/-- The named operator has no use for an operand. -/
def Refuses (operator : String) (e : Error) : Prop := ∃ reason, e = invalidArgument operator reason

/-- What the built-in operator of a name may report when it has so many operands.  The paths of
`missing_some` are looked at as those of `missing`. -/
inductive ReportedBy (name : String) (operands : Nat) : Error → Prop
  | refused {e : Error} (hname : name ∈ Builtin.refusing)
      (h : e.Refuses name) : ReportedBy name operands e
  | refusedPath {e : Error} (hname : name = "missing_some") (h : e.Refuses "missing") :
      ReportedBy name operands e
  | noOperands (hname : name = "and" ∨ name = "or") (h : operands = 0) :
      ReportedBy name operands (noOperands name)

theorem ReportedBy.isOperatorFailure {name : String} {operands : Nat} {e : Error}
    (h : e.ReportedBy name operands) : e.IsOperatorFailure := by
  cases h with
  | refused hname h =>
      obtain ⟨reason, rfl⟩ := h
      trivial
  | refusedPath hname h =>
      obtain ⟨reason, rfl⟩ := h
      trivial
  | noOperands hname h => trivial

end Error

open Error

namespace Value

theorem failsIn_pathOf (operator : String) (v : Value) :
    FailsIn (Refuses operator) (v.pathOf operator) := by
  cases v with
  | array items => exact FailsIn.error ⟨_, rfl⟩
  | object members => exact FailsIn.error ⟨_, rfl⟩
  | _ => exact FailsIn.ok _

theorem failsIn_lookup (data path default : Value) :
    FailsIn (Refuses "var") (data.lookup path default) :=
  (failsIn_pathOf "var" path).bind fun _ => FailsIn.ok _

theorem failsIn_missing (data : Value) (paths : List Value) :
    FailsIn (Refuses "missing") (data.missing paths) := by
  induction paths with
  | nil => exact FailsIn.ok _
  | cons path rest ih =>
      exact (failsIn_pathOf "missing" path).bind fun _ => ih.bind fun _ => FailsIn.ok _

end Value

namespace Builtin

theorem failsIn_missing (args : List Value) (data : Value) :
    FailsIn (Refuses "missing") (missing args data) :=
  (Value.failsIn_missing data _).bind fun _ => FailsIn.ok _

theorem failsIn_missingSome (args : List Value) (data : Value) :
    FailsIn (fun e => e.Refuses "missing_some" ∨ e.Refuses "missing") (missingSome args data) := by
  have hpaths : ∀ paths, FailsIn (fun e => e.Refuses "missing_some" ∨ e.Refuses "missing")
      (data.missing paths) := fun paths => (Value.failsIn_missing data paths).mono fun _ => .inr
  rw [missingSome]
  cases argument args 1 with
  | array paths => exact (hpaths paths).bind fun _ => FailsIn.ok _
  | _ => exact FailsIn.error (.inl ⟨_, rfl⟩)

theorem failsIn_position (what : String) (operand : Value) :
    FailsIn (Refuses "substr") (position what operand) := by
  rw [position]
  split
  · exact FailsIn.error ⟨_, rfl⟩
  · exact FailsIn.ok _

theorem failsIn_bounds (size : Nat) (start length : Value) :
    FailsIn (Refuses "substr") (bounds size start length) := by
  refine (failsIn_position "start" _).bind fun start => ?_
  cases length with
  | null => exact FailsIn.ok _
  | _ => exact (failsIn_position "length" _).bind fun _ => FailsIn.ok _

theorem failsIn_substr? (args : List Value) : FailsIn (Refuses "substr") (substr? args) :=
  (failsIn_bounds _ _ _).bind fun _ => FailsIn.ok _

/-! ### Scripts -/

variable {P : Error → Prop}

open LazyScript

theorem plain_firstDeciding (decides : Value → Bool) (data last : Value) (operands : List Nat) :
    Plain P (firstDeciding decides data last operands : LazyScript σ Value) := by
  induction operands generalizing last with
  | nil => exact Plain.pure last
  | cons operand rest ih =>
      refine (Plain.evaluate operand data).bind fun v => ?_
      split
      · exact Plain.pure v
      · exact ih v

theorem plain_shortCircuit {name : String} (hname : name = "and" ∨ name = "or")
    (decides : Value → Bool) (operands : Nat) (data : Value) :
    Plain (ReportedBy name operands)
      (shortCircuit name decides operands data : LazyScript σ Value) := by
  rw [shortCircuit]
  split
  · exact Plain.throw (.noOperands hname ‹operands = 0›)
  · exact plain_firstDeciding decides data .null _

theorem plain_branches (data : Value) (operands : List Nat) :
    Plain P (branches data operands : LazyScript σ Value) := by
  fun_induction branches data operands with
  | case1 condition branch rest ih =>
      refine (Plain.evaluate condition data).bind fun v => ?_
      split
      · exact Plain.evaluate branch data
      · exact ih
  | case2 default => exact Plain.evaluate default data
  | case3 => exact Plain.pure Value.null

theorem plain_source (data : Value) : Plain P (source data : LazyScript σ (List Value)) :=
  (Plain.evaluate 0 data).bind fun _ => Plain.pure _

theorem plain_body (element : Value) : Plain P (body element : LazyScript σ Value) :=
  Plain.evaluate 1 element

theorem plain_mapElements (elements : List Value) :
    Plain P (mapElements elements : LazyScript σ (List Value)) := by
  induction elements with
  | nil => exact Plain.pure []
  | cons element rest ih =>
      exact (plain_body element).bind fun v => ih.bind fun vs => Plain.pure _

theorem plain_filterElements (elements : List Value) :
    Plain P (filterElements elements : LazyScript σ (List Value)) := by
  induction elements with
  | nil => exact Plain.pure []
  | cons element rest ih =>
      exact (plain_body element).bind fun v => ih.bind fun kept => Plain.pure _

theorem plain_reduceElements (accumulator : Value) (elements : List Value) :
    Plain P (reduceElements accumulator elements : LazyScript σ Value) := by
  induction elements generalizing accumulator with
  | nil => exact Plain.pure accumulator
  | cons element rest ih => exact (plain_body _).bind ih

theorem plain_anyElement (wanted : Bool) (elements : List Value) :
    Plain P (anyElement wanted elements : LazyScript σ Bool) := by
  induction elements with
  | nil => exact Plain.pure false
  | cons element rest ih =>
      refine (plain_body element).bind fun v => ?_
      split
      · exact Plain.pure true
      · exact ih

end Builtin

/-! ### Operators -/

namespace Operator

def IsBuiltin (operator : Operator σ) : Prop := ∃ d ∈ Builtin.definitions, d.operator = operator

theorem plain_ofFunction {Q : Error → Prop} {P : Nat → Error → Prop}
    {f : List Value → Value → Except Error Value} (hf : ∀ args data, FailsIn Q (f args data))
    (hQP : ∀ e, Q e → ∀ operands, P operands e) : (ofFunction f : Operator σ).Plain P :=
  fun args data => ⟨f args data, [], (hf args data).mono hQP, fun _ => rfl⟩

end Operator

namespace Builtin

open LazyScript

variable {d : Definition σ} {name : String}

theorem plain_total {P : Nat → Error → Prop} (name : String) (f : List Value → Value) :
    (total name f : Definition σ).operator.Plain P :=
  Operator.plain_ofFunction (Q := fun _ => False) (fun args _ => FailsIn.ok (f args))
    fun _ h => h.elim

theorem plain_inputFamily (hd : d ∈ inputFamily) (hname : name ∈ d.aliases ++ [d.name]) :
    d.operator.Plain (ReportedBy name) := by
  simp only [inputFamily, List.mem_cons, List.not_mem_nil, or_false] at hd
  rcases hd with rfl | rfl | rfl
  · obtain rfl : name = "var" := List.mem_singleton.mp hname
    exact Operator.plain_ofFunction (fun _ data => Value.failsIn_lookup data _ _)
      fun e he _ => .refused (by decide) he
  · obtain rfl : name = "missing" := List.mem_singleton.mp hname
    exact Operator.plain_ofFunction failsIn_missing fun e he _ => .refused (by decide) he
  · obtain rfl : name = "missing_some" := List.mem_singleton.mp hname
    refine Operator.plain_ofFunction failsIn_missingSome fun e he _ => ?_
    rcases he with he | he
    · exact .refused (by decide) he
    · exact .refusedPath rfl he

theorem plain_logicalFamily (hd : d ∈ logicalFamily) (hname : name ∈ d.aliases ++ [d.name]) :
    d.operator.Plain (ReportedBy name) := by
  simp only [logicalFamily, List.mem_cons, List.not_mem_nil, or_false] at hd
  rcases hd with rfl | rfl | rfl | rfl
  · obtain rfl : name = "and" := List.mem_singleton.mp hname
    exact fun operands data => plain_shortCircuit (.inl rfl) _ operands data
  · obtain rfl : name = "or" := List.mem_singleton.mp hname
    exact fun operands data => plain_shortCircuit (.inr rfl) _ operands data
  · exact plain_total "!" _
  · exact plain_total "!!" _

theorem plain_branchingFamily (hd : d ∈ branchingFamily) {P : Nat → Error → Prop} :
    d.operator.Plain P := by
  rw [List.mem_singleton.mp hd]
  exact fun operands data => plain_branches data _

theorem plain_comparisonFamily (hd : d ∈ comparisonFamily) {P : Nat → Error → Prop} :
    d.operator.Plain P := by
  simp only [comparisonFamily, List.mem_cons, List.not_mem_nil, or_false] at hd
  rcases hd with rfl | rfl | rfl | rfl | rfl | rfl | rfl | rfl <;> exact plain_total _ _

theorem plain_arithmeticFamily (hd : d ∈ arithmeticFamily) {P : Nat → Error → Prop} :
    d.operator.Plain P := by
  simp only [arithmeticFamily, List.mem_cons, List.not_mem_nil, or_false] at hd
  rcases hd with rfl | rfl | rfl | rfl | rfl | rfl | rfl <;> exact plain_total _ _

theorem plain_stringFamily (hd : d ∈ stringFamily) (hname : name ∈ d.aliases ++ [d.name]) :
    d.operator.Plain (ReportedBy name) := by
  simp only [stringFamily, List.mem_cons, List.not_mem_nil, or_false] at hd
  rcases hd with rfl | rfl
  · exact plain_total "cat" _
  · obtain rfl : name = "substr" := List.mem_singleton.mp hname
    refine Operator.plain_ofFunction (fun args _ => ?_) fun e he _ => .refused (by decide) he
    exact (failsIn_substr? args).bind fun part => FailsIn.ok (Value.string part.get!)

theorem plain_arrayFamily (hd : d ∈ arrayFamily) {P : Nat → Error → Prop} :
    d.operator.Plain P := by
  simp only [arrayFamily, List.mem_cons, List.not_mem_nil, or_false] at hd
  rcases hd with rfl | rfl | rfl | rfl | rfl | rfl | rfl | rfl
  · exact plain_total "merge" _
  · exact plain_total "in" _
  · exact fun _ data => (plain_source data).bind fun elements =>
      (plain_mapElements elements).bind fun vs => Plain.pure _
  · exact fun _ data => (plain_source data).bind fun elements =>
      (plain_filterElements elements).bind fun vs => Plain.pure _
  · exact fun _ data => (plain_source data).bind fun elements =>
      (Plain.evaluate 2 data).bind fun initial => plain_reduceElements initial elements
  all_goals
    exact fun _ data => (plain_source data).bind fun elements =>
      (plain_anyElement _ elements).bind fun found => Plain.pure _

theorem plain_miscFamily (hd : d ∈ miscFamily) {P : Nat → Error → Prop} :
    d.operator.Plain P := by
  rw [List.mem_singleton.mp hd]
  exact fun args _ => ⟨.ok (argument args 0), [.logged (argument args 0).jsonText],
    FailsIn.ok _, fun _ => rfl⟩

/-- A built-in operator only evaluates its operands, and its own failures tell its name. -/
theorem plain_of_mem_definitions (hd : d ∈ definitions) (hname : name ∈ d.aliases ++ [d.name]) :
    d.operator.Plain (ReportedBy name) := by
  simp only [definitions, List.mem_append] at hd
  rcases hd with ((((((hd | hd) | hd) | hd) | hd) | hd) | hd) | hd
  · exact plain_inputFamily hd hname
  · exact plain_logicalFamily hd hname
  · exact plain_branchingFamily hd
  · exact plain_comparisonFamily hd
  · exact plain_arithmeticFamily hd
  · exact plain_stringFamily hd hname
  · exact plain_arrayFamily hd
  · exact plain_miscFamily hd

end Builtin

namespace Operator.IsBuiltin

variable {operator : Operator σ}

theorem exists_plain (h : operator.IsBuiltin) : ∃ name, operator.Plain (ReportedBy name) := by
  obtain ⟨d, hd, rfl⟩ := h
  exact ⟨d.name, Builtin.plain_of_mem_definitions hd (by simp)⟩

/-- No built-in operator goes on after a failure, and none reports a failure of the evaluation. -/
theorem failsFast (h : operator.IsBuiltin) : operator.FailsFast IsOperatorFailure := by
  obtain ⟨name, hplain⟩ := h.exists_plain
  exact hplain.failsFast fun _ _ he => he.isOperatorFailure

end Operator.IsBuiltin

namespace Registry

def OnlyBuiltin (r : Registry σ) : Prop := ∀ slot ∈ r.slots, slot.operator.IsBuiltin

theorem OnlyBuiltin.of_get? {r : Registry σ} (h : r.OnlyBuiltin) {slot : Nat}
    {operator : Operator σ} (hget : r.get? slot = some operator) : operator.IsBuiltin := by
  obtain ⟨s, hs, rfl⟩ := Option.map_eq_some_iff.mp hget
  exact h s (List.mem_of_getElem? hs)

theorem OnlyBuiltin.of_lookup? {r : Registry σ} (h : r.OnlyBuiltin) {name : String}
    {operator : Operator σ} (hlookup : r.lookup? name = some operator) : operator.IsBuiltin := by
  obtain ⟨slot, _, hget⟩ := Option.bind_eq_some_iff.mp hlookup
  exact h.of_get? hget

theorem OnlyBuiltin.insert {r : Registry σ} (h : r.OnlyBuiltin) (name : String)
    {operator : Operator σ} (hoperator : operator.IsBuiltin) :
    (r.insert name operator).OnlyBuiltin := by
  intro slot hslot
  rcases mem_slots_insert hslot with hold | rfl
  · exact h slot hold
  · exact hoperator

theorem OnlyBuiltin.ofDefinitions {definitions : List (Definition σ)}
    (hbuiltin : ∀ d ∈ definitions, d.operator.IsBuiltin) (supply : IdSupply) :
    ((ofDefinitions definitions).run supply).1.OnlyBuiltin :=
  insertDefinitions_induction (fun d hd name _ _ hr => hr.insert name (hbuiltin d hd))
    fun _ hslot => absurd hslot List.not_mem_nil

theorem onlyBuiltin_standard (supply : IdSupply) :
    ((Builtin.registry : StateM IdSupply (Registry σ)).run supply).1.OnlyBuiltin :=
  OnlyBuiltin.ofDefinitions (fun d hd => ⟨d, hd, rfl⟩) supply

/-- The registry holds the built-in operators under their names, and nothing else. -/
def IsStandard (r : Registry σ) : Prop := ∃ supply, (Builtin.registry.run supply).1 = r

theorem isStandard_registry (supply : IdSupply) :
    ((Builtin.registry : StateM IdSupply (Registry σ)).run supply).1.IsStandard := ⟨supply, rfl⟩

namespace IsStandard

variable {r s : Registry σ}

theorem onlyBuiltin (h : r.IsStandard) : r.OnlyBuiltin := by
  obtain ⟨supply, rfl⟩ := h
  exact onlyBuiltin_standard supply

theorem eq_insertDefinitions (h : r.IsStandard) :
    r = Builtin.definitions.foldl insertDefinition (withId r.id) := by
  have hrun : ∀ (definitions : List (Definition σ)) (supply : IdSupply),
      ((ofDefinitions definitions).run supply).1 =
        definitions.foldl insertDefinition (withId ⟨supply.next⟩) := fun _ _ => rfl
  obtain ⟨supply, rfl⟩ := h
  have hid := (later_insertDefinitions Builtin.definitions (withId (σ := σ) ⟨supply.next⟩)).id_eq
  rw [Builtin.registry, hrun, hid]
  rfl

theorem indexed (h : r.IsStandard) : r.Indexed := by
  rw [h.eq_insertDefinitions]
  exact (indexed_withId r.id).insertDefinitions Builtin.definitions

/-- Two standard registries of one identity are the same. -/
theorem later (hr : r.IsStandard) (hs : s.IsStandard) (hid : s.id = r.id) : r.Later s := by
  rw [hs.eq_insertDefinitions, hid, ← hr.eq_insertDefinitions]
  exact Later.refl r

end IsStandard

end Registry

end JsonRules
