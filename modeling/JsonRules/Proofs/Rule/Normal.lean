import JsonRules.Proofs.Rule.Compiled

/-!
# Normal forms of rules

A compiled rule written out again has an array of arguments in every call and is the same otherwise.
Compiling that gives the same tree at other places.  What makes this work is that the literals of a
compiled tree are data in which no call can be reached, and that an array node is one because of some
call in it.
-/

namespace JsonRules

namespace Value

mutual

/-- The rule with the arguments of each of its calls written as an array. -/
def normal : Value → Value
  | array items => array (normals items)
  | object [(name, args)] => object [(name, array (normalArguments args))]
  | v => v
termination_by structural v => v

/-- The arguments of a call in normal form: the elements of an array, or a single one. -/
def normalArguments : Value → List Value
  | array items => normals items
  | object [(name, args)] => [object [(name, array (normalArguments args))]]
  | v => [v]
termination_by structural v => v

def normals : List Value → List Value
  | [] => []
  | v :: rest => v.normal :: normals rest
termination_by structural items => items

end

mutual

/-- No call can be reached in the value: it is compiled to itself. -/
def IsData : Value → Prop
  | array items => AllData items
  | object [_] => False
  | _ => True
termination_by structural v => v

def AllData : List Value → Prop
  | [] => True
  | v :: rest => v.IsData ∧ AllData rest
termination_by structural items => items

end

theorem allData_iff {items : List Value} : AllData items ↔ ∀ v ∈ items, v.IsData := by
  induction items with
  | nil => simp [AllData]
  | cons v items ih => simp [AllData, ih]

end Value

def CallSite.withoutPath (site : CallSite) : CallSite := { site with path := .root }

namespace Expr

/-- The tree with its names, slots and literals, but without the places of its calls. -/
def withoutPaths (e : Expr) : Expr := e.mapSites CallSite.withoutPath

theorem toRule_eq_of_withoutPaths {e again : Expr} (h : again.withoutPaths = e.withoutPaths) :
    again.toRule = e.toRule := by
  have hpaths : ∀ e : Expr, e.withoutPaths.toRule = e.toRule := toRule_mapSites fun _ => rfl
  rw [← hpaths again, h, hpaths e]

theorem nodeCount_eq_of_withoutPaths {e again : Expr} (h : again.withoutPaths = e.withoutPaths) :
    again.nodeCount = e.nodeCount := by
  have hpaths : ∀ e : Expr, e.withoutPaths.nodeCount = e.nodeCount := nodeCount_mapSites _
  rw [← hpaths again, h, hpaths e]

/-! ### The rule of a compiled tree -/

theorem mapM_asLiteral?_cons {e : Expr} {nodes : List Expr} {values : List Value}
    (h : (e :: nodes).mapM asLiteral? = some values) :
    ∃ v rest, literal v = e ∧ nodes.mapM asLiteral? = some rest ∧ v :: rest = values := by
  rw [List.mapM_cons] at h
  cases e with
  | literal v =>
      obtain ⟨rest, hrest, hvalues⟩ := Option.bind_eq_some_iff.mp
        (show (nodes.mapM asLiteral?).bind (fun rest => some (v :: rest)) = some values from h)
      exact ⟨v, rest, rfl, hrest, Option.some.inj hvalues⟩
  | array items => cases h
  | call site args => cases h

theorem map_toRule_of_mapM {nodes : List Expr} {values : List Value}
    (h : nodes.mapM asLiteral? = some values) : nodes.map toRule = values := by
  induction nodes generalizing values with
  | nil =>
      cases h
      rfl
  | cons e nodes ih =>
      obtain ⟨v, rest, rfl, hrest, rfl⟩ := mapM_asLiteral?_cons h
      exact congrArg (v :: ·) (ih hrest)

theorem toRule_ofNodes (nodes : List Expr) : (ofNodes nodes).toRule = .array (nodes.map toRule) := by
  rw [ofNodes]
  cases hvalues : nodes.mapM asLiteral? with
  | some values => exact congrArg Value.array (map_toRule_of_mapM hvalues).symm
  | none => exact congrArg Value.array (toRules_eq_map nodes)

variable {resolve : String → Option Nat}

theorem toRule_ofCall (path : Pointer) (name : String) (args : List Expr) :
    (ofCall resolve path name args).toRule = .object [(name, .array (args.map toRule))] := by
  rw [ofCall, toRule, toRules_eq_map]

/-! ### What compiling succeeds with -/

theorem exists_of_bind_eq_ok {ε α β : Type} {x : Except ε α} {f : α → Except ε β} {b : β}
    (h : (x >>= f) = .ok b) : ∃ a, x = .ok a ∧ f a = .ok b := by
  cases x with
  | error e => cases h
  | ok a => exact ⟨a, rfl, h⟩

theorem ofRule_array_eq_ok {path : Pointer} {items : List Value} {e : Expr}
    (h : ofRule resolve path (.array items) = .ok e) :
    ∃ nodes, ofRules resolve path 0 items = .ok nodes ∧ ofNodes nodes = e := by
  rw [ofRule] at h
  obtain ⟨nodes, hnodes, he⟩ := exists_of_bind_eq_ok h
  exact ⟨nodes, hnodes, Except.ok.inj he⟩

theorem ofRule_call_eq_ok {path : Pointer} {name : String} {v : Value} {e : Expr}
    (h : ofRule resolve path (.object [(name, v)]) = .ok e) :
    ∃ args, ofArguments resolve (path.child name) name v = .ok args ∧
      ofCall resolve path name args = e := by
  rw [ofRule] at h
  obtain ⟨args, hargs, he⟩ := exists_of_bind_eq_ok h
  exact ⟨args, hargs, Except.ok.inj he⟩

theorem ofArguments_call_eq_ok {path : Pointer} {name inner : String} {v : Value}
    {args : List Expr} (h : ofArguments resolve path name (.object [(inner, v)]) = .ok args) :
    ∃ innerArgs, ofArguments resolve (path.child inner) inner v = .ok innerArgs ∧
      [ofCall resolve path inner innerArgs] = args := by
  rw [ofArguments] at h
  obtain ⟨innerArgs, hinner, hargs⟩ := exists_of_bind_eq_ok h
  exact ⟨innerArgs, hinner, Except.ok.inj hargs⟩

theorem ofRules_cons_eq_ok {path : Pointer} {i : Nat} {v : Value} {rest : List Value}
    {nodes : List Expr} (h : ofRules resolve path i (v :: rest) = .ok nodes) :
    ∃ node others, ofRule resolve (path.element i) v = .ok node ∧
      ofRules resolve path (i + 1) rest = .ok others ∧ node :: others = nodes := by
  rw [ofRules] at h
  obtain ⟨node, hnode, h⟩ := exists_of_bind_eq_ok h
  obtain ⟨others, hothers, h⟩ := exists_of_bind_eq_ok h
  exact ⟨node, others, hnode, hothers, Except.ok.inj h⟩

mutual

theorem toRule_of_ofRule : ∀ {path : Pointer} {v : Value} {e : Expr},
    ofRule resolve path v = .ok e → e.toRule = v.normal
  | _, .array _, _, h => by
      obtain ⟨nodes, hnodes, rfl⟩ := ofRule_array_eq_ok h
      rw [toRule_ofNodes, toRule_of_ofRules hnodes, Value.normal]
  | _, .object [(_, _)], _, h => by
      obtain ⟨args, hargs, rfl⟩ := ofRule_call_eq_ok h
      rw [toRule_ofCall, toRule_of_ofArguments hargs, Value.normal]
  | _, .object [], _, h => by cases h; rfl
  | _, .object (_ :: _ :: _), _, h => by cases h; rfl
  | _, .null, _, h => by cases h; rfl
  | _, .bool _, _, h => by cases h; rfl
  | _, .number _, _, h => by cases h; rfl
  | _, .string _, _, h => by cases h; rfl
termination_by structural _ v => v

theorem toRule_of_ofArguments : ∀ {path : Pointer} {name : String} {v : Value} {args : List Expr},
    ofArguments resolve path name v = .ok args → args.map toRule = v.normalArguments
  | _, _, .array _, _, h => toRule_of_ofRules h
  | _, _, .object [(_, _)], _, h => by
      obtain ⟨innerArgs, hinner, rfl⟩ := ofArguments_call_eq_ok h
      rw [List.map_singleton, toRule_ofCall, toRule_of_ofArguments hinner, Value.normalArguments]
  | _, _, .object [], _, h => by cases h
  | _, _, .object (_ :: _ :: _), _, h => by cases h
  | _, _, .null, _, h => by cases h; rfl
  | _, _, .bool _, _, h => by cases h; rfl
  | _, _, .number _, _, h => by cases h; rfl
  | _, _, .string _, _, h => by cases h; rfl
termination_by structural _ _ v => v

theorem toRule_of_ofRules : ∀ {path : Pointer} {i : Nat} {items : List Value} {nodes : List Expr},
    ofRules resolve path i items = .ok nodes → nodes.map toRule = Value.normals items
  | _, _, [], _, h => by cases h; rfl
  | _, _, _ :: _, _, h => by
      obtain ⟨node, others, hnode, hothers, rfl⟩ := ofRules_cons_eq_ok h
      rw [List.map_cons, toRule_of_ofRule hnode, toRule_of_ofRules hothers, Value.normals]
termination_by structural _ _ items => items

end

/-! ### Compiling the written rule -/

mutual

theorem ofRule_of_isData : ∀ (path : Pointer) {v : Value},
    v.IsData → ofRule resolve path v = .ok (literal v)
  | path, .array items, h => by
      obtain ⟨nodes, hnodes, hvalues⟩ := ofRules_of_allData path 0 h
      rw [ofRule, hnodes]
      change Except.ok (ofNodes nodes) = _
      rw [ofNodes, hvalues]
  | _, .object [_], h => h.elim
  | _, .object [], _ => rfl
  | _, .object (_ :: _ :: _), _ => rfl
  | _, .null, _ => rfl
  | _, .bool _, _ => rfl
  | _, .number _, _ => rfl
  | _, .string _, _ => rfl
termination_by structural _ v => v

theorem ofRules_of_allData : ∀ (path : Pointer) (i : Nat) {items : List Value},
    Value.AllData items →
      ∃ nodes, ofRules resolve path i items = .ok nodes ∧ nodes.mapM asLiteral? = some items
  | _, _, [], _ => ⟨[], rfl, rfl⟩
  | path, i, v :: rest, h => by
      obtain ⟨nodes, hnodes, hvalues⟩ := ofRules_of_allData path (i + 1) h.2
      refine ⟨literal v :: nodes, ?_, ?_⟩
      · rw [ofRules, ofRule_of_isData (path.element i) h.1, hnodes]
        rfl
      · rw [List.mapM_cons, hvalues]
        rfl
termination_by structural _ _ items => items

end

mutual

/-- What all compiled trees have in common: literals are data, an array has something in it that is no
literal, and a call remembers the slot of its name. -/
def CompiledBy (resolve : String → Option Nat) : Expr → Prop
  | literal v => v.IsData
  | array items => items.mapM asLiteral? = none ∧ AllCompiledBy resolve items
  | call site args => site.slot = resolve site.name ∧ AllCompiledBy resolve args
termination_by structural e => e

def AllCompiledBy (resolve : String → Option Nat) : List Expr → Prop
  | [] => True
  | e :: rest => e.CompiledBy resolve ∧ AllCompiledBy resolve rest
termination_by structural es => es

end

theorem AllCompiledBy.of_mem {es : List Expr} (h : AllCompiledBy resolve es) {e : Expr}
    (he : e ∈ es) : e.CompiledBy resolve := by
  induction es with
  | nil => cases he
  | cons d es ih =>
      rcases List.mem_cons.mp he with rfl | he
      · exact h.1
      · exact ih h.2 he

theorem AllCompiledBy.allData {nodes : List Expr} (h : AllCompiledBy resolve nodes)
    {values : List Value} (hvalues : nodes.mapM asLiteral? = some values) :
    Value.AllData values := by
  induction nodes generalizing values with
  | nil =>
      cases hvalues
      trivial
  | cons e nodes ih =>
      obtain ⟨v, rest, rfl, hrest, rfl⟩ := mapM_asLiteral?_cons hvalues
      exact ⟨h.1, ih h.2 hrest⟩

theorem AllCompiledBy.ofNodes {nodes : List Expr} (h : AllCompiledBy resolve nodes) :
    (ofNodes nodes).CompiledBy resolve := by
  rw [Expr.ofNodes]
  cases hvalues : nodes.mapM asLiteral? with
  | some values => exact h.allData hvalues
  | none => exact ⟨hvalues, h⟩

theorem AllCompiledBy.ofCall {args : List Expr} (h : AllCompiledBy resolve args) (path : Pointer)
    (name : String) : (ofCall resolve path name args).CompiledBy resolve := ⟨rfl, h⟩

mutual

theorem compiledBy_of_ofRule : ∀ {path : Pointer} {v : Value} {e : Expr},
    ofRule resolve path v = .ok e → e.CompiledBy resolve
  | _, .array _, _, h => by
      obtain ⟨nodes, hnodes, rfl⟩ := ofRule_array_eq_ok h
      exact (allCompiledBy_of_ofRules hnodes).ofNodes
  | _, .object [(_, _)], _, h => by
      obtain ⟨args, hargs, rfl⟩ := ofRule_call_eq_ok h
      exact (allCompiledBy_of_ofArguments hargs).ofCall _ _
  | _, .object [], _, h => by cases h; trivial
  | _, .object (_ :: _ :: _), _, h => by cases h; trivial
  | _, .null, _, h => by cases h; trivial
  | _, .bool _, _, h => by cases h; trivial
  | _, .number _, _, h => by cases h; trivial
  | _, .string _, _, h => by cases h; trivial
termination_by structural _ v => v

theorem allCompiledBy_of_ofArguments :
    ∀ {path : Pointer} {name : String} {v : Value} {args : List Expr},
    ofArguments resolve path name v = .ok args → AllCompiledBy resolve args
  | _, _, .array _, _, h => allCompiledBy_of_ofRules h
  | _, _, .object [(_, _)], _, h => by
      obtain ⟨innerArgs, hinner, rfl⟩ := ofArguments_call_eq_ok h
      exact ⟨(allCompiledBy_of_ofArguments hinner).ofCall _ _, trivial⟩
  | _, _, .object [], _, h => by cases h
  | _, _, .object (_ :: _ :: _), _, h => by cases h
  | _, _, .null, _, h => by cases h; exact ⟨trivial, trivial⟩
  | _, _, .bool _, _, h => by cases h; exact ⟨trivial, trivial⟩
  | _, _, .number _, _, h => by cases h; exact ⟨trivial, trivial⟩
  | _, _, .string _, _, h => by cases h; exact ⟨trivial, trivial⟩
termination_by structural _ _ v => v

theorem allCompiledBy_of_ofRules :
    ∀ {path : Pointer} {i : Nat} {items : List Value} {nodes : List Expr},
    ofRules resolve path i items = .ok nodes → AllCompiledBy resolve nodes
  | _, _, [], _, h => by cases h; trivial
  | _, _, _ :: _, _, h => by
      obtain ⟨node, others, hnode, hothers, rfl⟩ := ofRules_cons_eq_ok h
      exact ⟨compiledBy_of_ofRule hnode, allCompiledBy_of_ofRules hothers⟩
termination_by structural _ _ items => items

end

/-- The tree can be had from the rule that it is written as, wherever that stands. -/
def Recompiles (resolve : String → Option Nat) (e : Expr) : Prop :=
  ∀ path, ∃ again, ofRule resolve path e.toRule = .ok again ∧
    again.withoutPaths = e.withoutPaths

theorem ofRules_of_recompiles {es : List Expr} (h : ∀ e ∈ es, e.Recompiles resolve)
    (path : Pointer) (i : Nat) :
    ∃ nodes, ofRules resolve path i (es.map toRule) = .ok nodes ∧
      nodes.map withoutPaths = es.map withoutPaths := by
  induction es generalizing i with
  | nil => exact ⟨[], rfl, rfl⟩
  | cons e es ih =>
      obtain ⟨node, hnode, hpaths⟩ := h e List.mem_cons_self (path.element i)
      obtain ⟨nodes, hnodes, hrest⟩ := ih (fun d hd => h d (List.mem_cons_of_mem e hd)) (i + 1)
      refine ⟨node :: nodes, ?_, ?_⟩
      · rw [List.map_cons, ofRules, hnode, hnodes]
        rfl
      · rw [List.map_cons, List.map_cons, hpaths, hrest]

theorem CompiledBy.recompiles {e : Expr} (h : e.CompiledBy resolve) : e.Recompiles resolve := by
  induction e with
  | literal v => exact fun path => ⟨literal v, ofRule_of_isData path h, rfl⟩
  | array items ih =>
      intro path
      obtain ⟨hnone, hitems⟩ := h
      obtain ⟨nodes, hnodes, hpaths⟩ :=
        ofRules_of_recompiles (fun e he => ih e he (hitems.of_mem he)) path 0
      refine ⟨ofNodes nodes, ?_, ?_⟩
      · rw [toRule, toRules_eq_map, ofRule, hnodes]
        rfl
      · -- Something in the array is no literal, and that stays so without the places.
        have harray : ofNodes items = array items := by rw [ofNodes, hnone]
        rw [withoutPaths, ← ofNodes_mapSites, ← harray, withoutPaths, ← ofNodes_mapSites]
        exact congrArg ofNodes hpaths
  | call site args ih =>
      intro path
      obtain ⟨hslot, hargs⟩ := h
      obtain ⟨nodes, hnodes, hpaths⟩ :=
        ofRules_of_recompiles (fun e he => ih e he (hargs.of_mem he)) (path.child site.name) 0
      refine ⟨ofCall resolve path site.name nodes, ?_, ?_⟩
      · rw [toRule, toRules_eq_map, ofRule, ofArguments, hnodes]
        rfl
      · rw [ofCall, withoutPaths, withoutPaths, mapSites_call, mapSites_call,
          CallSite.withoutPath, CallSite.withoutPath, hslot]
        exact congrArg (call _) hpaths

end Expr

end JsonRules
