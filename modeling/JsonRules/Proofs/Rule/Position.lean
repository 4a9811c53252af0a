import JsonRules.Proofs.Rule.Tree
import Mathlib.Data.List.Lex

/-!
# Positions in rules and trees

A position tells the way from the root of a rule or tree to one of its nodes by the number of the
child to go on with at each step.  In a rule the children are the elements of an array and the
arguments of a call; objects with no member or several have none.  Of two positions the one that is
first in the lexicographic order is reached first from left to right, a node before its children.
-/

namespace JsonRules

namespace Pointer

instance : Append Pointer := ⟨fun p q => ⟨p.tokens ++ q.tokens⟩⟩

theorem ext {p q : Pointer} (h : p.tokens = q.tokens) : p = q := congrArg mk h

@[simp] theorem tokens_append (p q : Pointer) : (p ++ q).tokens = p.tokens ++ q.tokens := rfl

@[simp] theorem tokens_child (p : Pointer) (token : String) :
    (p.child token).tokens = p.tokens ++ [token] := rfl

@[simp] theorem tokens_element (p : Pointer) (i : Nat) :
    (p.element i).tokens = p.tokens ++ [i.repr] := rfl

@[simp] theorem append_root (p : Pointer) : p ++ root = p := ext (List.append_nil p.tokens)

theorem append_assoc (p q r : Pointer) : p ++ q ++ r = p ++ (q ++ r) :=
  ext (List.append_assoc p.tokens q.tokens r.tokens)

end Pointer

namespace Value

def elementsFrom (way : Pointer) (items : List Value) : List (Pointer × Value) :=
  items.zipIdx.map fun c => (way.element c.2, c.1)

/-- The arguments that a value stands for: its elements if it is an array, else itself. -/
def argumentsFrom (way : Pointer) : Value → List (Pointer × Value)
  | array items => elementsFrom way items
  | v => [(way, v)]

/-- The values that are next inside, with the ways to them: the elements of an array, the arguments
of a call. -/
def children : Value → List (Pointer × Value)
  | array items => elementsFrom .root items
  | object [(name, v)] => argumentsFrom (Pointer.root.child name) v
  | _ => []

/-- The value at a position, with the pointer to it. -/
def locate? : Value → (position : List Nat) → Option (Pointer × Value)
  | v, [] => some (.root, v)
  | v, i :: p =>
      v.children[i]?.bind fun c => (c.2.locate? p).map fun found => (c.1 ++ found.1, found.2)

def IsCall : Value → Prop
  | object [_] => True
  | _ => False

/-- An object that is not the shape of a call. -/
def IsRecord : Value → Prop
  | object [_] => False
  | object _ => True
  | _ => False

/-- A call whose argument is an object, but no call. -/
def IsMalformed (v : Value) : Prop := ∃ name x, v = object [(name, x)] ∧ x.IsRecord

/-- There is a call at some position. -/
def HasCall (v : Value) : Prop := ∃ p way w, v.locate? p = some (way, w) ∧ w.IsCall

/-- At the position there is a call of `name` whose argument `x` is an object, but no call. -/
def MalformedAt (v : Value) (p : List Nat) (way : Pointer) (name : String) (x : Value) : Prop :=
  v.locate? p = some (way, object [(name, x)]) ∧ x.IsRecord

/-- The malformed call at the position is the first one from left to right. -/
def FirstMalformedAt (v : Value) (p : List Nat) (way : Pointer) (name : String) (x : Value) : Prop :=
  v.MalformedAt p way name x ∧
    ∀ q way' name' x', v.MalformedAt q way' name' x' → q = p ∨ List.Lex (· < ·) p q

theorem isCall_iff {v : Value} : v.IsCall ↔ ∃ name x, v = object [(name, x)] := by
  constructor
  · intro h
    cases v with
    | object members =>
        match members, h with
        | [(name, x)], _ => exact ⟨name, x, rfl⟩
    | _ => exact h.elim
  · rintro ⟨name, x, rfl⟩
    trivial

theorem isRecord_iff {v : Value} :
    v.IsRecord ↔ ∃ members, v = object members ∧ members.length ≠ 1 := by
  constructor
  · intro h
    cases v with
    | object members =>
        refine ⟨members, rfl, fun hlength => ?_⟩
        obtain ⟨entry, rfl⟩ := List.length_eq_one_iff.mp hlength
        exact h
    | _ => exact h.elim
  · rintro ⟨members, rfl, hlength⟩
    match members, hlength with
    | [], _ => trivial
    | _ :: _ :: _, _ => trivial

/-- A value is an array or a call, or it has no children. -/
@[elab_as_elim]
theorem childrenCases {motive : Value → Prop} (array : ∀ items, motive (array items))
    (call : ∀ name x, motive (object [(name, x)]))
    (leaf : ∀ v, ¬v.IsCall → v.children = [] → motive v) (v : Value) : motive v := by
  cases v with
  | array items => exact array items
  | object members =>
      match members with
      | [(name, x)] => exact call name x
      | [] => exact leaf _ id rfl
      | _ :: _ :: _ => exact leaf _ id rfl
  | _ => exact leaf _ id rfl

theorem getElem?_elementsFrom (way : Pointer) (items : List Value) (i : Nat) :
    (elementsFrom way items)[i]? = items[i]?.map fun v => (way.element i, v) := by
  simp [elementsFrom, List.getElem?_zipIdx, Option.map_map, Function.comp_def]

theorem argumentsFrom_cases (way : Pointer) (v : Value) :
    (∃ items, v = array items ∧ argumentsFrom way v = elementsFrom way items) ∨
      (∀ items, v ≠ array items) ∧ argumentsFrom way v = [(way, v)] := by
  cases v with
  | array items => exact .inl ⟨items, rfl, rfl⟩
  | _ => exact .inr ⟨fun _ => nofun, rfl⟩

theorem mem_of_mem_elementsFrom {way : Pointer} {items : List Value} {c : Pointer × Value}
    (hc : c ∈ elementsFrom way items) : c.2 ∈ items := by
  obtain ⟨i, hi⟩ := List.mem_iff_getElem?.mp hc
  rw [getElem?_elementsFrom] at hi
  obtain ⟨v, hv, rfl⟩ := Option.map_eq_some_iff.mp hi
  exact List.mem_of_getElem? hv

theorem sizeOf_le_of_mem_argumentsFrom {way : Pointer} {v : Value} {c : Pointer × Value}
    (hc : c ∈ argumentsFrom way v) : sizeOf c.2 ≤ sizeOf v := by
  rcases argumentsFrom_cases way v with ⟨items, rfl, harguments⟩ | ⟨_, harguments⟩
  · rw [harguments] at hc
    have hlt := List.sizeOf_lt_of_mem (mem_of_mem_elementsFrom hc)
    simp only [array.sizeOf_spec]
    omega
  · rw [harguments, List.mem_singleton] at hc
    rw [hc]

theorem sizeOf_lt_of_mem_children {v : Value} {c : Pointer × Value} (hc : c ∈ v.children) :
    sizeOf c.2 < sizeOf v := by
  cases v using childrenCases with
  | array items =>
      have hlt := List.sizeOf_lt_of_mem (mem_of_mem_elementsFrom hc)
      simp only [array.sizeOf_spec]
      omega
  | call name x =>
      have hle := sizeOf_le_of_mem_argumentsFrom hc
      simp only [object.sizeOf_spec, List.cons.sizeOf_spec, Prod.mk.sizeOf_spec]
      omega
  | leaf v _ hnil =>
      rw [hnil] at hc
      cases hc

/-- Induction over a value with the statement for each of its children. -/
@[elab_as_elim]
theorem childrenInduction {motive : Value → Prop}
    (step : ∀ v, (∀ c ∈ v.children, motive c.2) → motive v) (v : Value) : motive v :=
  step v fun c _ => childrenInduction step c.2
termination_by v
decreasing_by exact sizeOf_lt_of_mem_children ‹c ∈ v.children›

theorem locate?_cons_eq_some_iff {v w : Value} {i : Nat} {p : List Nat} {way : Pointer} :
    v.locate? (i :: p) = some (way, w) ↔
      ∃ c rest, v.children[i]? = some c ∧ c.2.locate? p = some (rest, w) ∧ c.1 ++ rest = way := by
  simp only [locate?, Option.bind_eq_some_iff, Option.map_eq_some_iff, Prod.mk.injEq, Prod.exists]
  constructor
  · rintro ⟨cway, u, hc, rest, _, hrest, rfl, rfl⟩
    exact ⟨cway, u, rest, hc, hrest, rfl⟩
  · rintro ⟨cway, u, rest, hc, hrest, rfl⟩
    exact ⟨cway, u, hc, rest, w, hrest, rfl, rfl⟩

namespace FirstMalformedAt

theorem here {name : String} {x : Value} (hx : x.IsRecord) :
    (object [(name, x)]).FirstMalformedAt [] .root name x := by
  refine ⟨⟨rfl, hx⟩, fun q _ _ _ _ => ?_⟩
  cases q with
  | nil => exact .inl rfl
  | cons i q => exact .inr .nil

/-- The first malformed call of a child is that of the value, if there is none before it. -/
theorem cons {v x : Value} {i : Nat} {p : List Nat} {c : Pointer × Value} {way : Pointer}
    {name : String} (h : c.2.FirstMalformedAt p way name x) (hc : v.children[i]? = some c)
    (hself : ¬v.IsMalformed)
    (hbefore : ∀ j < i, ∀ d, v.children[j]? = some d →
      ∀ q way name x, ¬d.2.MalformedAt q way name x) :
    v.FirstMalformedAt (i :: p) (c.1 ++ way) name x := by
  obtain ⟨⟨hlocate, hx⟩, hfirst⟩ := h
  refine ⟨⟨locate?_cons_eq_some_iff.mpr ⟨c, way, hc, hlocate, rfl⟩, hx⟩, ?_⟩
  rintro q way' name' x' ⟨hq, hx'⟩
  cases q with
  | nil =>
      obtain ⟨_, rfl⟩ := Prod.mk.inj (Option.some.inj hq)
      exact (hself ⟨name', x', rfl, hx'⟩).elim
  | cons j q =>
      obtain ⟨d, rest, hd, hrest, _⟩ := locate?_cons_eq_some_iff.mp hq
      rcases Nat.lt_trichotomy j i with hlt | rfl | hgt
      · exact (hbefore j hlt d hd q rest name' x' ⟨hrest, hx'⟩).elim
      · cases hc.symm.trans hd
        rcases hfirst q rest name' x' ⟨hrest, hx'⟩ with rfl | hlex
        · exact .inl rfl
        · exact .inr (.cons hlex)
      · exact .inr (.rel hgt)

theorem unique {v x x' : Value} {p q : List Nat} {way way' : Pointer} {name name' : String}
    (h : v.FirstMalformedAt p way name x) (h' : v.FirstMalformedAt q way' name' x') :
    p = q ∧ way = way' ∧ name = name' := by
  have hpq : p = q := by
    rcases h.2 q way' name' x' h'.1 with heq | hlex
    · exact heq.symm
    · rcases h'.2 p way name x h.1 with heq | hlex'
      · exact heq
      · exact (asymm hlex hlex').elim
  subst hpq
  have hlocate := h.1.1.symm.trans h'.1.1
  simp only [Option.some.injEq, Prod.mk.injEq, object.injEq, List.cons.injEq] at hlocate
  exact ⟨rfl, hlocate.1, hlocate.2.1.1⟩

end FirstMalformedAt

theorem hasCall_iff {v : Value} : v.HasCall ↔ v.IsCall ∨ ∃ c ∈ v.children, c.2.HasCall := by
  constructor
  · rintro ⟨p, way, w, hp, hw⟩
    cases p with
    | nil =>
        cases hp
        exact .inl hw
    | cons i p =>
        obtain ⟨c, rest, hc, hrest, _⟩ := locate?_cons_eq_some_iff.mp hp
        exact .inr ⟨c, List.mem_of_getElem? hc, p, rest, w, hrest, hw⟩
  · rintro (h | ⟨c, hc, p, rest, w, hrest, hw⟩)
    · exact ⟨[], .root, v, rfl, h⟩
    · obtain ⟨i, hi⟩ := List.mem_iff_getElem?.mp hc
      exact ⟨i :: p, c.1 ++ rest, w, locate?_cons_eq_some_iff.mpr ⟨c, rest, hi, hrest, rfl⟩, hw⟩

theorem exists_array_of_hasCall {v : Value} (h : v.HasCall) (hself : ¬v.IsCall) :
    ∃ items, v = array items := by
  rcases hasCall_iff.mp h with hv | ⟨c, hc, _⟩
  · exact (hself hv).elim
  · cases v using childrenCases with
    | array items => exact ⟨items, rfl⟩
    | call name x => exact (hself trivial).elim
    | leaf v _ hnil =>
        rw [hnil] at hc
        cases hc

end Value

namespace Expr

def children : Expr → List Expr
  | literal _ => []
  | array items => items
  | call _ args => args

def node? : Expr → (position : List Nat) → Option Expr
  | e, [] => some e
  | e, i :: p => e.children[i]?.bind (·.node? p)

theorem node?_cons_eq_some_iff {e f : Expr} {i : Nat} {p : List Nat} :
    e.node? (i :: p) = some f ↔ ∃ d, e.children[i]? = some d ∧ d.node? p = some f := by
  rw [node?, Option.bind_eq_some_iff]

def HasNode (e f : Expr) : Prop := ∃ p, e.node? p = some f

theorem hasNode_self (e : Expr) : e.HasNode e := ⟨[], rfl⟩

theorem HasNode.of_mem_children {d e f : Expr} (hd : d ∈ e.children) (h : d.HasNode f) :
    e.HasNode f := by
  obtain ⟨i, hi⟩ := List.mem_iff_getElem?.mp hd
  obtain ⟨p, hp⟩ := h
  exact ⟨i :: p, node?_cons_eq_some_iff.mpr ⟨d, hi, hp⟩⟩

end Expr

end JsonRules
