import JsonRules.Proofs.Rule.Grammar
import Std.Data.String.ToNat

/-!
# Pointers read back

The text of a pointer is read by splitting it at its slashes and undoing the escapes, and what is read
is followed from the root: in an object by key, in an array by decimal position.  So the place that a
call or an error tells leads back into the rule, whatever the names of operators are, and calls at
different positions have different places.
-/

namespace JsonRules

namespace Pointer

/-- The token with the given escaped form. -/
def unescape? : List Char → Option (List Char)
  | [] => some []
  | '~' :: '0' :: rest => (unescape? rest).map ('~' :: ·)
  | '~' :: '1' :: rest => (unescape? rest).map ('/' :: ·)
  | '~' :: _ => none
  | c :: rest => (unescape? rest).map (c :: ·)

/-- The pointer with the given text: none at all, or a slash before each token. -/
def ofText? (text : String) : Option Pointer :=
  match text.toList with
  | [] => some root
  | '/' :: rest => ((rest.splitOn '/').mapM unescape?).map fun tokens => ⟨tokens.map String.ofList⟩
  | _ => none

/-- The position that a token stands for in an array: decimal digits without leading zeros. -/
def index? (token : String) : Option Nat := token.toNat?.filter (·.repr == token)

@[simp] theorem index?_repr (i : Nat) : index? i.repr = some i := by
  simp [index?, Nat.toNat?_repr]

theorem unescape?_cons {c : Char} (hc : c ≠ '~') (rest : List Char) :
    unescape? (c :: rest) = (unescape? rest).map (c :: ·) := by
  rw [unescape?]
  all_goals
    intros
    exact absurd ‹c = '~'› hc

theorem unescape?_escape (token : List Char) : unescape? (token.flatMap escape) = some token := by
  induction token with
  | nil => rfl
  | cons c token ih =>
      by_cases htilde : c = '~'
      · simp [escape, htilde, unescape?, ih]
      · by_cases hslash : c = '/'
        · simp [escape, hslash, unescape?, ih]
        · have hescape : escape c = [c] := by simp [escape, htilde, hslash]
          rw [List.flatMap_cons, hescape, List.singleton_append, unescape?_cons htilde, ih]
          rfl

theorem slash_notMem_escape (token : List Char) : '/' ∉ token.flatMap escape := by
  simp only [List.mem_flatMap, not_exists, not_and]
  intro c _
  rw [escape]
  split
  · simp
  · split
    · simp
    · simpa using Ne.symm ‹c ≠ '/'›

theorem flatMap_tokenText (token : String) (tokens : List String) :
    (token :: tokens).flatMap tokenText =
      '/' :: ['/'].intercalate ((token :: tokens).map fun t => t.toList.flatMap escape) := by
  induction tokens generalizing token with
  | nil => simp [tokenText]
  | cons next tokens ih =>
      rw [List.flatMap_cons, ih next]
      simp only [List.map_cons, List.intercalate_cons_cons]
      simp [tokenText]

theorem ofText?_text (p : Pointer) : ofText? p.text = some p := by
  obtain ⟨tokens⟩ := p
  cases tokens with
  | nil => rfl
  | cons token tokens =>
      let texts := (token :: tokens).map fun t => t.toList.flatMap escape
      have hsplit : (['/'].intercalate texts).splitOn '/' = texts := by
        refine List.splitOn_intercalate '/' (fun text htext => ?_) (by simp [texts])
        obtain ⟨t, _, rfl⟩ := List.mem_map.mp htext
        exact slash_notMem_escape t.toList
      have hread : texts.mapM unescape? = some ((token :: tokens).map String.toList) := by
        rw [List.mapM_map]
        simp only [Function.comp_def, unescape?_escape]
        exact List.mapM_pure
      rw [ofText?, text, String.toList_ofList, flatMap_tokenText]
      simp only [texts] at hsplit hread
      simp only [hsplit, hread]
      simp

theorem text_inj {p q : Pointer} : p.text = q.text ↔ p = q := by
  refine ⟨fun h => ?_, congrArg text⟩
  have hread := ofText?_text p
  rw [h, ofText?_text] at hread
  exact (Option.some.inj hread).symm

end Pointer

namespace Value

/-- What a token leads to: the member with that key, or the element at that position. -/
def deref? (token : String) : Value → Option Value
  | object members => members.lookup token
  | array items => (Pointer.index? token).bind (items[·]?)
  | _ => none

def follow? : Value → (tokens : List String) → Option Value
  | v, [] => some v
  | v, token :: rest => (v.deref? token).bind (follow? · rest)

/-- The value to which a text leads as a pointer. -/
def pointed? (v : Value) (text : String) : Option Value :=
  (Pointer.ofText? text).bind fun p => v.follow? p.tokens

theorem pointed?_text (v : Value) (p : Pointer) : v.pointed? p.text = v.follow? p.tokens := by
  rw [pointed?, Pointer.ofText?_text]
  rfl

theorem follow?_append (v : Value) (tokens others : List String) :
    v.follow? (tokens ++ others) = (v.follow? tokens).bind (follow? · others) := by
  induction tokens generalizing v with
  | nil => rfl
  | cons token tokens ih =>
      rw [List.cons_append, follow?, follow?, Option.bind_assoc]
      exact congrArg (v.deref? token).bind (funext fun w => ih w)

@[simp] theorem deref?_element (items : List Value) (i : Nat) :
    (array items).deref? i.repr = items[i]? := by simp [deref?]

@[simp] theorem deref?_call (name : String) (x : Value) :
    (object [(name, x)]).deref? name = some x := by simp [deref?]

theorem follow?_of_mem_elementsFrom {way : Pointer} {items : List Value} {v : Value}
    {c : Pointer × Value} (hway : v.follow? way.tokens = some (array items))
    (hc : c ∈ elementsFrom way items) : v.follow? c.1.tokens = some c.2 := by
  obtain ⟨i, hi⟩ := List.mem_iff_getElem?.mp hc
  rw [getElem?_elementsFrom] at hi
  obtain ⟨w, hw, rfl⟩ := Option.map_eq_some_iff.mp hi
  simp [follow?_append, hway, follow?, hw]

theorem follow?_of_mem_children {v : Value} {c : Pointer × Value} (hc : c ∈ v.children) :
    v.follow? c.1.tokens = some c.2 := by
  cases v using childrenCases with
  | array items => exact follow?_of_mem_elementsFrom rfl hc
  | call name x =>
      have hname : (object [(name, x)]).follow? [name] = some x := by simp [follow?]
      rw [children] at hc
      rcases argumentsFrom_cases (Pointer.root.child name) x with
        ⟨items, rfl, harguments⟩ | ⟨_, harguments⟩
      · rw [harguments] at hc
        exact follow?_of_mem_elementsFrom hname hc
      · rw [harguments, List.mem_singleton] at hc
        rw [hc]
        exact hname
  | leaf v _ hnil =>
      rw [hnil] at hc
      cases hc

/-- The pointer to a position of a rule leads to the value there. -/
theorem follow?_of_locate? {v w : Value} {p : List Nat} {way : Pointer}
    (h : v.locate? p = some (way, w)) : v.follow? way.tokens = some w := by
  induction p generalizing v way with
  | nil =>
      cases h
      rfl
  | cons i p ih =>
      obtain ⟨c, rest, hc, hrest, rfl⟩ := locate?_cons_eq_some_iff.mp h
      have hchild := follow?_of_mem_children (List.mem_of_getElem? hc)
      rw [Pointer.tokens_append, follow?_append, hchild]
      exact ih hrest

/-! ### Positions and the pointers to them -/

theorem elementsFrom_way_inj {way a b : Pointer} {items : List Value} {i j : Nat}
    {c d : Pointer × Value} (hc : (elementsFrom way items)[i]? = some c)
    (hd : (elementsFrom way items)[j]? = some d) (h : c.1 ++ a = d.1 ++ b) : i = j ∧ a = b := by
  rw [getElem?_elementsFrom] at hc hd
  obtain ⟨v, _, rfl⟩ := Option.map_eq_some_iff.mp hc
  obtain ⟨w, _, rfl⟩ := Option.map_eq_some_iff.mp hd
  have htokens := congrArg Pointer.tokens h
  simp only [Pointer.tokens_append, Pointer.tokens_element, List.append_assoc,
    List.append_cancel_left_eq, List.cons_append, List.nil_append, List.cons.injEq,
    Nat.repr_inj] at htokens
  exact ⟨htokens.1, Pointer.ext htokens.2⟩

/-- Each child is reached in a way of its own, and no way to a child begins with another. -/
theorem children_way_inj {v : Value} {a b : Pointer} {i j : Nat} {c d : Pointer × Value}
    (hc : v.children[i]? = some c) (hd : v.children[j]? = some d) (h : c.1 ++ a = d.1 ++ b) :
    i = j ∧ a = b := by
  cases v using childrenCases with
  | array items => exact elementsFrom_way_inj hc hd h
  | call name x =>
      rw [children] at hc hd
      rcases argumentsFrom_cases (Pointer.root.child name) x with
        ⟨items, rfl, harguments⟩ | ⟨_, harguments⟩
      · rw [harguments] at hc hd
        exact elementsFrom_way_inj hc hd h
      · -- The only argument is reached in the same way from both sides.
        have hi := (List.getElem?_eq_some_iff.mp hc).1
        have hj := (List.getElem?_eq_some_iff.mp hd).1
        rw [harguments, List.length_singleton] at hi hj
        obtain rfl : i = j := by omega
        cases hc.symm.trans hd
        have htokens := congrArg Pointer.tokens h
        exact ⟨rfl, Pointer.ext (List.append_cancel_left htokens)⟩
  | leaf v _ hnil =>
      rw [hnil] at hc
      cases hc

theorem way_ne_root_of_mem_children {v : Value} {c : Pointer × Value} (hc : c ∈ v.children)
    (way : Pointer) : c.1 ++ way ≠ .root := by
  intro h
  have htokens : c.1.tokens = [] := (List.append_eq_nil_iff.mp (congrArg Pointer.tokens h)).1
  -- The empty way would lead to the value itself, but a child is smaller.
  have hsame := follow?_of_mem_children hc
  rw [htokens] at hsame
  have hlt := sizeOf_lt_of_mem_children hc
  rw [← Option.some.inj hsame] at hlt
  exact Nat.lt_irrefl _ hlt

/-- Different positions of a rule have different pointers. -/
theorem position_eq_of_way_eq {v w u : Value} {p q : List Nat} {way : Pointer}
    (hp : v.locate? p = some (way, w)) (hq : v.locate? q = some (way, u)) : p = q := by
  induction p generalizing v q way with
  | nil =>
      cases q with
      | nil => rfl
      | cons j q =>
          cases hp
          obtain ⟨c, rest, hc, _, hway⟩ := locate?_cons_eq_some_iff.mp hq
          exact (way_ne_root_of_mem_children (List.mem_of_getElem? hc) rest hway).elim
  | cons i p ih =>
      obtain ⟨c, rest, hc, hrest, rfl⟩ := locate?_cons_eq_some_iff.mp hp
      cases q with
      | nil =>
          have hway := (Prod.mk.inj (Option.some.inj hq)).1
          exact (way_ne_root_of_mem_children (List.mem_of_getElem? hc) rest hway.symm).elim
      | cons j q =>
          obtain ⟨d, rest', hd, hrest', hway⟩ := locate?_cons_eq_some_iff.mp hq
          obtain ⟨rfl, rfl⟩ := children_way_inj hc hd hway.symm
          cases hc.symm.trans hd
          rw [ih hrest hrest']

end Value

namespace Registry

variable {σ : Type} {r : Registry σ} {v : Value}

/-- A call in the tree of a rule stands at the place that it remembers. -/
theorem locate?_of_node? {rule : CompiledRule} (h : r.compiled v = .ok rule) {p : List Nat}
    {site : CallSite} {args : List Expr} (hp : rule.root.node? p = some (.call site args)) :
    ∃ x, v.locate? p = some (site.path, .object [(site.name, x)]) ∧
      Expr.ofRule r.resolve? site.path (.object [(site.name, x)]) = .ok (.call site args) := by
  obtain ⟨way, w, hw, hcompiled⟩ := Expr.ofRule_of_node? (ofRule_of_compiled h).1 hp
  have hcall : w.IsCall := by
    cases Expr.compiledAs_of_ofRule hcompiled with
    | call hself => exact hself
  obtain ⟨name, x, rfl⟩ := Value.isCall_iff.mp hcall
  obtain ⟨args, _, hsite⟩ := Expr.ofRule_call_eq_ok hcompiled
  cases hsite
  exact ⟨x, hw, hcompiled⟩

/-- The place that a call of a compiled rule remembers, read as a pointer, leads to the object that it was
compiled from, and no two calls have the same.  The place in the error for a rejected rule leads to the
rejected argument. -/
theorem compiled_places (r : Registry σ) (v : Value) :
    (∀ rule, r.compiled v = .ok rule →
      (∀ p site args, rule.root.node? p = some (.call site args) →
        ∃ x, v.locate? p = some (site.path, .object [(site.name, x)]) ∧
          Expr.ofRule r.resolve? site.path (.object [(site.name, x)]) = .ok (.call site args) ∧
          v.pointed? site.path.text = some (.object [(site.name, x)])) ∧
      (∀ p q site other args others, rule.root.node? p = some (.call site args) →
        rule.root.node? q = some (.call other others) → site.path.text = other.path.text → p = q)) ∧
    (∀ e, r.compiled v = .error e → ∃ place reason p way name x,
      e = .malformedRule place reason ∧ v.FirstMalformedAt p way name x ∧
        v.pointed? way.text = some (.object [(name, x)]) ∧ v.pointed? place = some x) := by
  refine ⟨fun rule hrule => ⟨fun p site args hp => ?_, ?_⟩, fun e he => ?_⟩
  · obtain ⟨x, hlocate, hcompiled⟩ := locate?_of_node? hrule hp
    refine ⟨x, hlocate, hcompiled, ?_⟩
    rw [Value.pointed?_text]
    exact Value.follow?_of_locate? hlocate
  · intro p q site other args others hp hq htext
    obtain ⟨_, hlocate, _⟩ := locate?_of_node? hrule hp
    obtain ⟨_, hlocate', _⟩ := locate?_of_node? hrule hq
    rw [← Pointer.text_inj.mp htext] at hlocate'
    exact Value.position_eq_of_way_eq hlocate hlocate'
  · obtain ⟨p, way, name, x, hfirst, rfl⟩ := compiled_eq_error_iff.mp he
    have hobject := Value.follow?_of_locate? hfirst.1.1
    have hargument : v.follow? (way.child name).tokens = some x := by
      rw [Pointer.tokens_child, Value.follow?_append, hobject]
      simp [Value.follow?]
    refine ⟨_, _, p, way, name, x, rfl, hfirst, ?_, ?_⟩
    · rw [Value.pointed?_text]
      exact hobject
    · rw [Value.pointed?_text]
      exact hargument

end Registry

end JsonRules
