import JsonRules.Engine
import JsonRules.Proofs.Value.Reordered

/-!
# Compiling similar rules

A call is an object with one member, and the places of calls do not go through other objects.  So rules
that differ in the order of members are compiled to trees that differ in their literals only, or are
refused for the same reason.
-/

namespace JsonRules

namespace Expr

/-- The same calls and arrays, with similar literals. -/
inductive Similar : Expr → Expr → Prop
  | literal {v w : Value} (h : v.Similar w) : Similar (literal v) (literal w)
  | array {items others : List Expr} (h : List.Forall₂ Similar items others) :
      Similar (array items) (array others)
  | call (site : CallSite) {args others : List Expr} (h : List.Forall₂ Similar args others) :
      Similar (call site args) (call site others)

theorem Similar.asLiteral? {e f : Expr} (h : e.Similar f) :
    Option.Rel Value.Similar e.asLiteral? f.asLiteral? := by
  cases h with
  | literal h => exact .some h
  | array _ => exact .none
  | call _ _ => exact .none

theorem rel_mapM_asLiteral? {nodes others : List Expr} (h : List.Forall₂ Similar nodes others) :
    Option.Rel (List.Forall₂ Value.Similar) (nodes.mapM asLiteral?) (others.mapM asLiteral?) := by
  induction h with
  | nil => exact .some .nil
  | cons hnode _ ih =>
      rw [List.mapM_cons, List.mapM_cons]
      exact rel_bind hnode.asLiteral? fun v w hvw =>
        rel_bind ih fun vs ws hvs => .some (.cons hvw hvs)

theorem ofNodes_similar {nodes others : List Expr} (h : List.Forall₂ Similar nodes others) :
    (ofNodes nodes).Similar (ofNodes others) := by
  have hvalues := rel_mapM_asLiteral? h
  rw [ofNodes, ofNodes]
  generalize nodes.mapM asLiteral? = values, others.mapM asLiteral? = others' at hvalues
  cases hvalues with
  | some hvalues => exact .literal (.array hvalues)
  | none => exact .array h

theorem ofCall_similar {resolve : String → Option Nat} (path : Pointer) (name : String)
    {args others : List Expr} (h : List.Forall₂ Similar args others) :
    (ofCall resolve path name args).Similar (ofCall resolve path name others) := .call _ h

variable (resolve : String → Option Nat)

mutual

theorem ofRule_similar : ∀ (path : Pointer) (v : Value) {w : Value}, v.Similar w →
    RelatedOutcomes Eq Similar (ofRule resolve path v) (ofRule resolve path w)
  | path, .array items, w, h => by
      cases h.parts with
      | array hitems =>
          rw [ofRule, ofRule]
          exact (ofRules_similar path 0 items hitems).bind fun _ _ h => .ok (ofNodes_similar h)
  | path, .object [(name, args)], w, h => by
      cases h.parts with
      | object hmembers =>
          obtain ⟨args', rfl, hargs⟩ := hmembers.of_singleton
          rw [ofRule, ofRule]
          exact (ofArguments_similar (path.child name) name args hargs).bind fun _ _ h =>
            .ok (ofCall_similar path name h)
  | _, .object [], _, h => by
      cases h.parts with
      | object hmembers =>
          cases List.length_eq_zero_iff.mp hmembers.length_eq.symm
          exact .ok (.literal h)
  | _, .object (first :: second :: rest), _, h => by
      cases h.parts with
      | @object _ others hmembers =>
          match others, hmembers.length_eq with
          | _ :: _ :: _, _ => exact .ok (.literal h)
  | _, .null, _, h => by cases h.parts; exact .ok (.literal h)
  | _, .bool _, _, h => by cases h.parts; exact .ok (.literal h)
  | _, .number _, _, h => by cases h.parts; exact .ok (.literal h)
  | _, .string _, _, h => by cases h.parts; exact .ok (.literal h)
termination_by structural _ v => v

theorem ofArguments_similar : ∀ (path : Pointer) (name : String) (v : Value) {w : Value},
    v.Similar w → RelatedOutcomes Eq (List.Forall₂ Similar) (ofArguments resolve path name v)
      (ofArguments resolve path name w)
  | path, _, .array items, w, h => by
      cases h.parts with
      | array hitems =>
          rw [ofArguments, ofArguments]
          exact ofRules_similar path 0 items hitems
  | path, _, .object [(inner, args)], w, h => by
      cases h.parts with
      | object hmembers =>
          obtain ⟨args', rfl, hargs⟩ := hmembers.of_singleton
          rw [ofArguments, ofArguments]
          exact (ofArguments_similar (path.child inner) inner args hargs).bind fun _ _ h =>
            .ok (.cons (ofCall_similar path inner h) .nil)
  | _, _, .object [], _, h => by
      cases h.parts with
      | object hmembers =>
          cases List.length_eq_zero_iff.mp hmembers.length_eq.symm
          exact .error rfl
  | _, _, .object (first :: second :: rest), _, h => by
      cases h.parts with
      | @object _ others hmembers =>
          match others, hmembers.length_eq with
          | _ :: _ :: _, _ => exact .error rfl
  | _, _, .null, _, h => by cases h.parts; exact .ok (.cons (.literal h) .nil)
  | _, _, .bool _, _, h => by cases h.parts; exact .ok (.cons (.literal h) .nil)
  | _, _, .number _, _, h => by cases h.parts; exact .ok (.cons (.literal h) .nil)
  | _, _, .string _, _, h => by cases h.parts; exact .ok (.cons (.literal h) .nil)
termination_by structural _ _ v => v

theorem ofRules_similar : ∀ (path : Pointer) (i : Nat) (items : List Value) {others : List Value},
    List.Forall₂ Value.Similar items others →
    RelatedOutcomes Eq (List.Forall₂ Similar) (ofRules resolve path i items)
      (ofRules resolve path i others)
  | _, _, [], _, h => by
      cases h
      exact .ok .nil
  | path, i, v :: rest, _, h => by
      cases h with
      | cons hv hrest =>
          rw [ofRules, ofRules]
          exact (ofRule_similar (path.element i) v hv).bind fun _ _ hnode =>
            (ofRules_similar path (i + 1) rest hrest).bind fun _ _ hnodes =>
              .ok (.cons hnode hnodes)
termination_by structural _ _ items => items

end

end Expr

/-- The same registry, and trees with similar literals. -/
structure CompiledRule.Similar (rule other : CompiledRule) : Prop where
  root : rule.root.Similar other.root
  registryId : rule.registryId = other.registryId

theorem Registry.compiled_similar {σ : Type} (r : Registry σ) {v w : Value} (h : v.Similar w) :
    RelatedOutcomes Eq CompiledRule.Similar (r.compiled v) (r.compiled w) :=
  (Expr.ofRule_similar r.resolve? .root v h).bind fun _ _ hroot => .ok ⟨hroot, rfl⟩

end JsonRules
