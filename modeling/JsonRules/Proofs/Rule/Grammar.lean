import JsonRules.Proofs.Rule.Normal
import JsonRules.Proofs.Rule.Position

/-!
# What is compiled, and to what

The compiler goes through the positions of a rule.  It stops at the first call whose argument is an
object but no call, and apart from that it turns every node into the node of the same position: data
into a literal, a call into a call, and an array with a call somewhere inside into an array.
-/

namespace JsonRules

section Traversal

variable {ε α β : Type} {f : α → Except ε β}

theorem mapM_eq_ok_iff {items : List α} {results : List β} :
    items.mapM f = .ok results ↔ items.map f = results.map .ok := by
  induction items generalizing results with
  | nil =>
      constructor
      · intro h
        cases h
        rfl
      · intro h
        rw [List.map_eq_nil_iff.mp h.symm]
        rfl
  | cons a items ih =>
      rw [List.mapM_cons, List.map_cons]
      constructor
      · intro h
        obtain ⟨b, hb, h⟩ := Expr.exists_of_bind_eq_ok h
        obtain ⟨rest, hrest, h⟩ := Expr.exists_of_bind_eq_ok h
        cases h
        rw [hb, ih.mp hrest, List.map_cons]
      · intro h
        obtain ⟨b, rest, rfl, hb, hrest⟩ := List.map_eq_cons_iff.mp h.symm
        rw [← hb, ih.mpr hrest.symm]
        rfl

/-- A traversal that fails does so at the first of its items that fails. -/
theorem exists_of_mapM_eq_error {items : List α} {e : ε} (h : items.mapM f = .error e) :
    ∃ (i : Nat) (a : α), items[i]? = some a ∧ f a = .error e ∧
      ∀ j < i, ∀ b, items[j]? = some b → ∃ result, f b = .ok result := by
  induction items with
  | nil => cases h
  | cons a items ih =>
      rw [List.mapM_cons] at h
      cases ha : f a with
      | error d =>
          rw [ha] at h
          cases h
          exact ⟨0, a, rfl, ha, fun j hj => absurd hj (Nat.not_lt_zero j)⟩
      | ok result =>
          have hrest : items.mapM f = .error e := by
            cases hitems : items.mapM f with
            | error d =>
                rw [ha, hitems] at h
                exact h
            | ok results =>
                rw [ha, hitems] at h
                cases h
          obtain ⟨i, b, hb, hfail, hbefore⟩ := ih hrest
          refine ⟨i + 1, b, hb, hfail, fun j hj c hc => ?_⟩
          cases j with
          | zero =>
              cases hc
              exact ⟨result, ha⟩
          | succ j => exact hbefore j (Nat.lt_of_succ_lt_succ hj) c hc

end Traversal

namespace Expr

variable {resolve : String → Option Nat}

/-! ### The compiler node by node -/

def ofChildren (resolve : String → Option Nat) (path : Pointer) (v : Value) :
    Except Error (List Expr) :=
  v.children.mapM fun c => ofRule resolve (path ++ c.1) c.2

/-- The node of a value whose children have the given nodes. -/
def assemble (resolve : String → Option Nat) (path : Pointer) : Value → List Expr → Expr
  | .array _, nodes => ofNodes nodes
  | .object [(name, _)], nodes => ofCall resolve path name nodes
  | v, _ => literal v

theorem ofRules_eq_mapM (path : Pointer) (i : Nat) (items : List Value) :
    ofRules resolve path i items =
      (items.zipIdx i).mapM fun c => ofRule resolve (path.element c.2) c.1 := by
  induction items generalizing i with
  | nil => rfl
  | cons v items ih =>
      rw [ofRules, ih, List.zipIdx_cons, List.mapM_cons]

theorem ofRules_eq_mapM_elementsFrom (path way : Pointer) (items : List Value) :
    ofRules resolve (path ++ way) 0 items =
      (Value.elementsFrom way items).mapM fun c => ofRule resolve (path ++ c.1) c.2 := by
  have hway : ∀ i, path ++ way.element i = (path ++ way).element i := fun i =>
    Pointer.ext (List.append_assoc path.tokens way.tokens [i.repr]).symm
  rw [ofRules_eq_mapM, Value.elementsFrom, List.mapM_map]
  simp only [Function.comp_def, hway]

theorem ofArguments_of_ne_array (path : Pointer) (name : String) {x : Value} (hx : ¬x.IsRecord)
    (harray : ∀ items, x ≠ .array items) :
    ofArguments resolve path name x = (fun node => [node]) <$> ofRule resolve path x := by
  cases x with
  | array items => exact (harray items rfl).elim
  | object members =>
      match members, hx with
      | [(inner, args)], _ =>
          rw [ofArguments, ofRule, map_bind]
          rfl
      | [], hx => exact (hx trivial).elim
      | _ :: _ :: _, hx => exact (hx trivial).elim
  | _ => rfl

theorem ofArguments_eq_ofChildren (path : Pointer) (name : String) {x : Value}
    (hx : ¬x.IsRecord) :
    ofArguments resolve (path.child name) name x =
      ofChildren resolve path (.object [(name, x)]) := by
  rw [ofChildren, Value.children]
  rcases Value.argumentsFrom_cases (Pointer.root.child name) x with
    ⟨items, rfl, harguments⟩ | ⟨harray, harguments⟩
  · rw [harguments, ofArguments]
    exact ofRules_eq_mapM_elementsFrom path (Pointer.root.child name) items
  · rw [harguments, ofArguments_of_ne_array _ _ hx harray, List.mapM_cons, ← bind_pure_comp]
    rfl

theorem ofRule_of_isRecord (path : Pointer) (name : String) {x : Value} (hx : x.IsRecord) :
    ofRule resolve path (.object [(name, x)]) =
      .error (.malformedArguments (path.child name).text name) := by
  obtain ⟨members, rfl, hlength⟩ := Value.isRecord_iff.mp hx
  match members, hlength with
  | [], _ => rfl
  | _ :: _ :: _, _ => rfl

theorem ofRule_eq_assemble (path : Pointer) {v : Value} (h : ¬v.IsMalformed) :
    ofRule resolve path v = assemble resolve path v <$> ofChildren resolve path v := by
  cases v with
  | array items =>
      rw [ofRule, ofChildren, Value.children, ← ofRules_eq_mapM_elementsFrom, Pointer.append_root,
        ← bind_pure_comp]
      rfl
  | object members =>
      rcases members with _ | ⟨⟨name, x⟩, _ | ⟨_, _⟩⟩
      · rfl
      · have hx : ¬x.IsRecord := fun hx => h ⟨name, x, rfl, hx⟩
        rw [ofRule, ofArguments_eq_ofChildren path name hx, ← bind_pure_comp]
        rfl
      · rfl
  | _ => rfl

theorem ofRule_eq_ok {path : Pointer} {v : Value} {e : Expr} (h : ofRule resolve path v = .ok e) :
    ¬v.IsMalformed ∧
      ∃ nodes, ofChildren resolve path v = .ok nodes ∧ assemble resolve path v nodes = e := by
  have hself : ¬v.IsMalformed := by
    rintro ⟨name, x, rfl, hx⟩
    rw [ofRule_of_isRecord path name hx] at h
    cases h
  refine ⟨hself, ?_⟩
  rw [ofRule_eq_assemble path hself] at h
  cases hchildren : ofChildren resolve path v with
  | error d =>
      rw [hchildren] at h
      cases h
  | ok nodes =>
      rw [hchildren] at h
      exact ⟨nodes, rfl, Except.ok.inj h⟩

section Children

variable {path : Pointer} {v : Value} {nodes : List Expr}

theorem children_assemble (path : Pointer) (v : Value) (nodes : List Expr) :
    (assemble resolve path v nodes).children = nodes ∨
      ∃ u, assemble resolve path v nodes = literal u := by
  cases v with
  | array items =>
      rw [assemble, ofNodes]
      cases nodes.mapM asLiteral? with
      | none => exact .inl rfl
      | some values => exact .inr ⟨.array values, rfl⟩
  | object members =>
      match members with
      | [(name, x)] => exact .inl rfl
      | [] => exact .inr ⟨_, rfl⟩
      | _ :: _ :: _ => exact .inr ⟨_, rfl⟩
  | _ => exact .inr ⟨_, rfl⟩

variable (hnodes : ofChildren resolve path v = .ok nodes)

include hnodes

theorem exists_node_of_child {i : Nat} {c : Pointer × Value} (hc : v.children[i]? = some c) :
    ∃ node, nodes[i]? = some node ∧ ofRule resolve (path ++ c.1) c.2 = .ok node := by
  have hi := congrArg (·[i]?) (mapM_eq_ok_iff.mp hnodes)
  simp only [List.getElem?_map, hc, Option.map_some] at hi
  obtain ⟨node, hnode, hok⟩ := Option.map_eq_some_iff.mp hi.symm
  exact ⟨node, hnode, hok.symm⟩

theorem exists_child_of_node {i : Nat} {node : Expr} (hnode : nodes[i]? = some node) :
    ∃ c, v.children[i]? = some c ∧ ofRule resolve (path ++ c.1) c.2 = .ok node := by
  have hi := congrArg (·[i]?) (mapM_eq_ok_iff.mp hnodes)
  simp only [List.getElem?_map, hnode, Option.map_some] at hi
  exact Option.map_eq_some_iff.mp hi

end Children

/-! ### The first malformed call -/

theorem not_malformedAt_of_ofRule {path way : Pointer} {v x : Value} {e : Expr} {p : List Nat}
    {name : String} (h : ofRule resolve path v = .ok e) : ¬v.MalformedAt p way name x := by
  rintro ⟨hlocate, hx⟩
  induction p generalizing path v e way with
  | nil =>
      obtain ⟨rfl, rfl⟩ := Prod.mk.inj (Option.some.inj hlocate)
      exact (ofRule_eq_ok h).1 ⟨name, x, rfl, hx⟩
  | cons i p ih =>
      obtain ⟨_, nodes, hnodes, _⟩ := ofRule_eq_ok h
      obtain ⟨c, rest, hc, hrest, _⟩ := Value.locate?_cons_eq_some_iff.mp hlocate
      obtain ⟨node, _, hnode⟩ := exists_node_of_child hnodes hc
      exact ih hnode hrest

theorem ofChildren_eq_error {path : Pointer} {v : Value} {e : Error}
    (h : ofRule resolve path v = .error e) (hself : ¬v.IsMalformed) :
    ofChildren resolve path v = .error e := by
  rw [ofRule_eq_assemble path hself] at h
  cases hchildren : ofChildren resolve path v with
  | error d =>
      rw [hchildren] at h
      cases h
      rfl
  | ok nodes =>
      rw [hchildren] at h
      cases h

/-- Compiling fails with the malformed call that is reached first. -/
theorem ofRule_eq_error {v : Value} : ∀ {path : Pointer} {e : Error},
    ofRule resolve path v = .error e → ∃ p way name x, v.FirstMalformedAt p way name x ∧
      e = .malformedArguments ((path ++ way).child name).text name := by
  induction v using Value.childrenInduction with
  | step v ih =>
      intro path e h
      by_cases hself : v.IsMalformed
      · obtain ⟨name, x, rfl, hx⟩ := hself
        rw [ofRule_of_isRecord path name hx] at h
        cases h
        exact ⟨[], .root, name, x, Value.FirstMalformedAt.here hx, by rw [Pointer.append_root]⟩
      · -- The first child that fails has the first malformed call: those before it have none.
        obtain ⟨i, c, hc, hfail, hbefore⟩ :=
          exists_of_mapM_eq_error (ofChildren_eq_error h hself)
        obtain ⟨p, way, name, x, hfirst, rfl⟩ := ih c (List.mem_of_getElem? hc) hfail
        refine ⟨i :: p, c.1 ++ way, name, x, hfirst.cons hc hself fun j hj d hd => ?_, ?_⟩
        · obtain ⟨node, hnode⟩ := hbefore j hj d hd
          exact fun q way name x => not_malformedAt_of_ofRule hnode
        · rw [Pointer.append_assoc]

/-! ### The nodes of the tree -/

/-- Every node of a tree is what the value at its position is compiled to. -/
theorem ofRule_of_node? {path : Pointer} {v : Value} {e f : Expr} {p : List Nat}
    (h : ofRule resolve path v = .ok e) (hf : e.node? p = some f) :
    ∃ way w, v.locate? p = some (way, w) ∧ ofRule resolve (path ++ way) w = .ok f := by
  induction p generalizing path v e with
  | nil =>
      cases hf
      exact ⟨.root, v, rfl, path.append_root.symm ▸ h⟩
  | cons i p ih =>
      obtain ⟨_, nodes, hnodes, rfl⟩ := ofRule_eq_ok h
      obtain ⟨d, hd, hf⟩ := node?_cons_eq_some_iff.mp hf
      rcases children_assemble path v nodes with hchildren | ⟨u, hu⟩
      · rw [hchildren] at hd
        obtain ⟨c, hc, hnode⟩ := exists_child_of_node hnodes hd
        obtain ⟨way, w, hw, hcompiled⟩ := ih hnode hf
        refine ⟨c.1 ++ way, w, ?_, ?_⟩
        · exact Value.locate?_cons_eq_some_iff.mpr ⟨c, way, hc, hw, rfl⟩
        · rw [← Pointer.append_assoc]
          exact hcompiled
      · rw [hu] at hd
        cases hd

/-- Every position of a rule is that of a node, or it is inside a literal. -/
theorem exists_node?_of_locate? {path way : Pointer} {v w : Value} {e : Expr} {p : List Nat}
    (h : ofRule resolve path v = .ok e) (hw : v.locate? p = some (way, w)) :
    (∃ f, e.node? p = some f) ∨ ∃ q u, q <+: p ∧ e.node? q = some (literal u) := by
  induction p generalizing path v e way with
  | nil => exact .inl ⟨e, rfl⟩
  | cons i p ih =>
      obtain ⟨c, rest, hc, hrest, _⟩ := Value.locate?_cons_eq_some_iff.mp hw
      obtain ⟨_, nodes, hnodes, rfl⟩ := ofRule_eq_ok h
      obtain ⟨node, hnode, hcompiled⟩ := exists_node_of_child hnodes hc
      rcases children_assemble path v nodes with hchildren | ⟨u, hu⟩
      · rw [← hchildren] at hnode
        rcases ih hcompiled hrest with ⟨f, hf⟩ | ⟨q, u, hq, hu⟩
        · exact .inl ⟨f, node?_cons_eq_some_iff.mpr ⟨node, hnode, hf⟩⟩
        · refine .inr ⟨i :: q, u, ?_, node?_cons_eq_some_iff.mpr ⟨node, hnode, hu⟩⟩
          exact List.cons_prefix_cons.mpr ⟨rfl, hq⟩
      · exact .inr ⟨[], u, List.nil_prefix, congrArg some hu⟩

/-! ### Data and calls -/

/-- A call stands somewhere below the tree through arrays alone. -/
inductive LeadsToCall : Expr → Prop
  | call {site : CallSite} {args : List Expr} : LeadsToCall (call site args)
  | array {items : List Expr} {e : Expr} (he : e ∈ items) (h : LeadsToCall e) :
      LeadsToCall (array items)

theorem asLiteral?_of_leadsToCall {e : Expr} (h : e.LeadsToCall) : e.asLiteral? = none := by
  cases h with
  | call => rfl
  | array => rfl

theorem ofNodes_of_leadsToCall {e : Expr} (h : e.LeadsToCall) {nodes : List Expr}
    (he : e ∈ nodes) : ofNodes nodes = array nodes := by
  have hnone : nodes.mapM asLiteral? = none := by
    induction nodes with
    | nil => cases he
    | cons d nodes ih =>
        cases hvalues : (d :: nodes).mapM asLiteral? with
        | none => rfl
        | some values =>
            obtain ⟨v, rest, rfl, hrest, rfl⟩ := mapM_asLiteral?_cons hvalues
            rcases List.mem_cons.mp he with rfl | he
            · cases asLiteral?_of_leadsToCall h
            · cases hrest.symm.trans (ih he)
  rw [ofNodes, hnone]

theorem leadsToCall_of_hasCall {v : Value} (hcall : v.HasCall) : ∀ {path : Pointer} {e : Expr},
    ofRule resolve path v = .ok e → e.LeadsToCall := by
  induction v using Value.childrenInduction with
  | step v ih =>
      intro path e h
      obtain ⟨_, nodes, hnodes, rfl⟩ := ofRule_eq_ok h
      by_cases hv : v.IsCall
      · obtain ⟨name, x, rfl⟩ := Value.isCall_iff.mp hv
        exact .call
      · rcases Value.hasCall_iff.mp hcall with hself | ⟨c, hc, hbelow⟩
        · exact (hv hself).elim
        · obtain ⟨i, hi⟩ := List.mem_iff_getElem?.mp hc
          obtain ⟨node, hnode, hcompiled⟩ := exists_node_of_child hnodes hi
          have hleads := ih c hc hbelow hcompiled
          have hmem := List.mem_of_getElem? hnode
          obtain ⟨items, rfl⟩ := Value.exists_array_of_hasCall hcall hv
          rw [assemble, ofNodes_of_leadsToCall hleads hmem]
          exact .array hmem hleads

theorem isData_of_not_hasCall {v : Value} (h : ¬v.HasCall) : v.IsData := by
  induction v using Value.childrenInduction with
  | step v ih =>
      have hself : ¬v.IsCall := fun hv => h (Value.hasCall_iff.mpr (.inl hv))
      have hbelow : ∀ c ∈ v.children, ¬c.2.HasCall :=
        fun c hc hcall => h (Value.hasCall_iff.mpr (.inr ⟨c, hc, hcall⟩))
      cases v with
      | array items =>
          refine Value.allData_iff.mpr fun v hv => ?_
          obtain ⟨i, hi⟩ := List.mem_iff_getElem?.mp hv
          have hc : (Pointer.root.element i, v) ∈ (Value.array items).children :=
            List.mem_of_getElem? ((Value.getElem?_elementsFrom .root items i).trans (by rw [hi]; rfl))
          exact ih _ hc (hbelow _ hc)
      | object members =>
          match members, hself with
          | [_], hself => exact hself trivial
          | [], _ => trivial
          | _ :: _ :: _, _ => trivial
      | _ => trivial

/-- A value is compiled to a literal, an array or a call by whether there is a call in it and whether
it is one. -/
inductive CompiledAs : Value → Expr → Prop
  | literal {v : Value} (h : ¬v.HasCall) : CompiledAs v (literal v)
  | array {v : Value} {items : List Expr} (h : v.HasCall) (hself : ¬v.IsCall)
      (hleads : (array items).LeadsToCall) : CompiledAs v (array items)
  | call {v : Value} {site : CallSite} {args : List Expr} (h : v.IsCall) :
      CompiledAs v (call site args)

theorem compiledAs_of_ofRule {path : Pointer} {v : Value} {e : Expr}
    (h : ofRule resolve path v = .ok e) : CompiledAs v e := by
  by_cases hself : v.IsCall
  · obtain ⟨name, x, rfl⟩ := Value.isCall_iff.mp hself
    obtain ⟨_, nodes, _, rfl⟩ := ofRule_eq_ok h
    exact .call hself
  · by_cases hcall : v.HasCall
    · have hleads := leadsToCall_of_hasCall hcall h
      cases e with
      | literal u => cases hleads
      | array items => exact .array hcall hself hleads
      | call site args =>
          obtain ⟨items, rfl⟩ := Value.exists_array_of_hasCall hcall hself
          obtain ⟨nodes, _, hnodes⟩ := ofRule_array_eq_ok h
          rw [ofNodes] at hnodes
          split at hnodes
          · cases hnodes
          · cases hnodes
    · rw [ofRule_of_isData path (isData_of_not_hasCall hcall)] at h
      cases h
      exact .literal hcall

end Expr

namespace Registry

variable {σ : Type} {r : Registry σ} {v : Value}

theorem compiled_eq_error_iff {e : Error} : r.compiled v = .error e ↔
    ∃ p way name x, v.FirstMalformedAt p way name x ∧
      e = .malformedArguments (way.child name).text name := by
  have hfirst : ∀ {d : Error}, r.compiled v = .error d →
      ∃ p way name x, v.FirstMalformedAt p way name x ∧
        d = .malformedArguments (way.child name).text name := by
    intro d h
    rw [compiled] at h
    cases hroot : Expr.ofRule r.resolve? .root v with
    | ok root =>
        rw [hroot] at h
        cases h
    | error e =>
        rw [hroot] at h
        cases h
        exact Expr.ofRule_eq_error hroot
  constructor
  · exact hfirst
  · rintro ⟨p, way, name, x, hmalformed, rfl⟩
    cases hcompiled : r.compiled v with
    | ok rule =>
        have hroot := (ofRule_of_compiled hcompiled).1
        exact (Expr.not_malformedAt_of_ofRule hroot hmalformed.1).elim
    | error d =>
        obtain ⟨q, way', name', x', hmalformed', rfl⟩ := hfirst hcompiled
        obtain ⟨_, rfl, rfl⟩ := hmalformed.unique hmalformed'
        rfl

theorem compiled_of_not_hasCall (h : ¬v.HasCall) : r.compiled v = .ok ⟨.literal v, r.id⟩ := by
  rw [compiled, Expr.ofRule_of_isData .root (Expr.isData_of_not_hasCall h)]
  rfl

/-- A rule is rejected for a malformed call in it and for nothing else, and it is the first one that is
reported, whatever operators there are.  In the tree of any other rule, a node is a literal if no call
can be reached in the value at its position, a call if that is one, and else an array with a call below.
A rule without calls is its own value. -/
theorem compiled_grammar (r : Registry σ) (v : Value) :
    ((∃ e, r.compiled v = .error e) ↔ ∃ p way name x, v.MalformedAt p way name x) ∧
    (∀ e, r.compiled v = .error e ↔ ∃ p way name x, v.FirstMalformedAt p way name x ∧
      e = .malformedArguments (way.child name).text name) ∧
    (∀ rule, r.compiled v = .ok rule →
      (∀ p f, rule.root.node? p = some f → ∃ way w, v.locate? p = some (way, w) ∧
        (f = .literal w ↔ ¬w.HasCall) ∧
        ((∃ site args, f = .call site args) ↔ w.IsCall) ∧
        ((∃ items, f = .array items) ↔ w.HasCall ∧ ¬w.IsCall) ∧
        (∀ items, f = .array items → f.LeadsToCall)) ∧
      (∀ p way w, v.locate? p = some (way, w) → (∃ f, rule.root.node? p = some f) ∨
        ∃ q u, q <+: p ∧ rule.root.node? q = some (.literal u))) ∧
    (¬v.HasCall → ∃ rule, r.compiled v = .ok rule ∧
      ∀ (s : Registry σ) (maxDepth : Option Nat) (data : Value) (host : σ),
        s.evaluate rule maxDepth data host = ⟨.ok v, [], host⟩) := by
  refine ⟨⟨?_, ?_⟩, fun e => compiled_eq_error_iff, fun rule hrule => ⟨?_, ?_⟩, fun h => ?_⟩
  · rintro ⟨e, he⟩
    obtain ⟨p, way, name, x, hfirst, _⟩ := compiled_eq_error_iff.mp he
    exact ⟨p, way, name, x, hfirst.1⟩
  · rintro ⟨p, way, name, x, hmalformed⟩
    cases hcompiled : r.compiled v with
    | ok rule =>
        have hroot := (ofRule_of_compiled hcompiled).1
        exact (Expr.not_malformedAt_of_ofRule hroot hmalformed).elim
    | error e => exact ⟨e, rfl⟩
  · intro p f hf
    obtain ⟨way, w, hw, hcompiled⟩ :=
      Expr.ofRule_of_node? (ofRule_of_compiled hrule).1 hf
    refine ⟨way, w, hw, ?_⟩
    cases Expr.compiledAs_of_ofRule hcompiled with
    | literal hdata =>
        have hself : ¬w.IsCall := fun h => hdata (Value.hasCall_iff.mpr (.inl h))
        simp [hdata, hself]
    | array hcall hself hleads => simp [hcall, hself, hleads]
    | call hself =>
        have hcall : w.HasCall := Value.hasCall_iff.mpr (.inl hself)
        simp [hcall, hself]
  · intro p way w hw
    exact Expr.exists_node?_of_locate? (ofRule_of_compiled hrule).1 hw
  · exact ⟨_, compiled_of_not_hasCall h, fun s maxDepth data host => rfl⟩

end Registry

end JsonRules
