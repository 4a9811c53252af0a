import JsonRules.Builtin.Catalogue

/-!
# Kinds of built-in operators

The built-in operators are of a few kinds.  Most are functions of the values of their operands, and
three of the others look into the data.  The rest evaluate their operands themselves: up to one that
decides, or, with a scope of their own, once for each element.
-/

namespace JsonRules.Builtin

variable {σ : Type}

/-- The operators that look into the data. -/
def accessNames : List String := ["var", "missing", "missing_some"]

/-- The operators that may leave out operands. -/
def shortCircuitNames : List String := ["and", "or", "if"]

/-- The operators whose second operand sees an element in the place of the data. -/
def elementwiseNames : List String := ["map", "filter", "all", "some", "none"]

def scopedNames : List String := "reduce" :: elementwiseNames

inductive Kind : Definition σ → Prop
  | access {name : String} (f : List Value → Value → Except Error Value)
      (hname : name ∈ accessNames) : Kind (reading name f)
  | function {name : String} (f : List Value → Except Error Value)
      (hname : name ∉ scopedNames) : Kind (checked name f)
  | log : Kind ⟨"log", [], log⟩
  | shortCircuit {name : String} (decides : Value → Bool) (hname : name ∈ ["and", "or"]) :
      Kind (lazily name [] (shortCircuit name decides))
  | conditional : Kind (lazily "if" ["?:"] conditional)
  | elementwise {name : String} (rest : List Value → LazyScript σ Value)
      (hname : name ∈ elementwiseNames) : Kind (lazily name [] fun _ data => source data >>= rest)
  | reduce : Kind (lazily "reduce" [] scopedReduce)

theorem kind_total {name : String} (f : List Value → Value) (hname : name ∉ scopedNames) :
    Kind (total name f : Definition σ) := .function _ hname

theorem kind_of_mem_definitions {d : Definition σ} (hd : d ∈ definitions) : Kind d := by
  simp only [definitions, List.mem_append] at hd
  rcases hd with ((((((hinput | hlogical) | hbranching) | hcomparison) | harithmetic) | hstring) |
    harray) | hmisc
  · simp only [inputFamily, List.mem_cons, List.not_mem_nil, or_false] at hinput
    rcases hinput with rfl | rfl | rfl
    all_goals exact .access _ (by decide)
  · simp only [logicalFamily, List.mem_cons, List.not_mem_nil, or_false] at hlogical
    rcases hlogical with rfl | rfl | rfl | rfl
    · exact .shortCircuit _ (by decide)
    · exact .shortCircuit _ (by decide)
    · exact kind_total _ (by decide)
    · exact kind_total _ (by decide)
  · rw [List.mem_singleton.mp hbranching]
    exact .conditional
  · simp only [comparisonFamily, List.mem_cons, List.not_mem_nil, or_false] at hcomparison
    rcases hcomparison with rfl | rfl | rfl | rfl | rfl | rfl | rfl | rfl
    all_goals exact kind_total _ (by decide)
  · simp only [arithmeticFamily, List.mem_cons, List.not_mem_nil, or_false] at harithmetic
    rcases harithmetic with rfl | rfl | rfl | rfl | rfl | rfl | rfl
    all_goals exact kind_total _ (by decide)
  · simp only [stringFamily, List.mem_cons, List.not_mem_nil, or_false] at hstring
    rcases hstring with rfl | rfl
    · exact kind_total _ (by decide)
    · exact .function _ (by decide)
  · simp only [arrayFamily, List.mem_cons, List.not_mem_nil, or_false] at harray
    rcases harray with rfl | rfl | rfl | rfl | rfl | rfl | rfl | rfl
    · exact kind_total _ (by decide)
    · exact kind_total _ (by decide)
    · exact .elementwise _ (by decide)
    · exact .elementwise _ (by decide)
    · exact .reduce
    all_goals exact .elementwise _ (by decide)
  · rw [List.mem_singleton.mp hmisc]
    exact .log

end JsonRules.Builtin
