import JsonRules.Engine
import JsonRules.Proofs.Rule.Tree

/-!
# The slots of a compiled tree

The registry has a say in nothing but the slots: compiled against other operators a rule gives the same
tree with the slots of those, and it fails with the same error.
-/

namespace JsonRules

def CallSite.withSlot (resolve : String → Option Nat) (site : CallSite) : CallSite :=
  { site with slot := resolve site.name }

namespace Expr

theorem asLiteral?_mapSites (f : CallSite → CallSite) (e : Expr) :
    (e.mapSites f).asLiteral? = e.asLiteral? := by
  cases e with
  | literal v => rfl
  | array items => rfl
  | call site args => rfl

theorem ofNodes_mapSites (f : CallSite → CallSite) (nodes : List Expr) :
    ofNodes (nodes.map (mapSites f)) = (ofNodes nodes).mapSites f := by
  have hvalues : (nodes.map (mapSites f)).mapM asLiteral? = nodes.mapM asLiteral? := by
    rw [List.mapM_map]
    exact congrArg nodes.mapM (funext fun e => asLiteral?_mapSites f e)
  rw [ofNodes, ofNodes, hvalues]
  cases nodes.mapM asLiteral? with
  | some values => rfl
  | none => exact (mapSites_array f nodes).symm

variable (resolve other : String → Option Nat)

theorem ofCall_mapSites (path : Pointer) (name : String) (args : List Expr) :
    ofCall resolve path name (args.map (mapSites (CallSite.withSlot resolve))) =
      (ofCall other path name args).mapSites (CallSite.withSlot resolve) := by
  rw [ofCall, ofCall, mapSites_call]
  rfl

mutual

/-- What a rule is compiled to with one registry, in terms of what it is compiled to with another. -/
theorem ofRule_eq_mapSites : ∀ (path : Pointer) (v : Value),
    ofRule resolve path v = mapSites (CallSite.withSlot resolve) <$> ofRule other path v
  | path, .array items => by
      rw [ofRule, ofRule, ofRules_eq_mapSites]
      cases ofRules other path 0 items with
      | error e => rfl
      | ok nodes => exact congrArg Except.ok (ofNodes_mapSites _ nodes)
  | path, .object [(name, args)] => by
      rw [ofRule, ofRule, ofArguments_eq_mapSites]
      cases ofArguments other (path.child name) name args with
      | error e => rfl
      | ok args => exact congrArg Except.ok (ofCall_mapSites resolve other path name args)
  | _, .object [] => rfl
  | _, .object (_ :: _ :: _) => rfl
  | _, .null => rfl
  | _, .bool _ => rfl
  | _, .number _ => rfl
  | _, .string _ => rfl
termination_by structural _ v => v

theorem ofArguments_eq_mapSites : ∀ (path : Pointer) (name : String) (v : Value),
    ofArguments resolve path name v =
      List.map (mapSites (CallSite.withSlot resolve)) <$> ofArguments other path name v
  | path, _, .array items => by rw [ofArguments, ofArguments, ofRules_eq_mapSites]
  | path, _, .object [(inner, args)] => by
      rw [ofArguments, ofArguments, ofArguments_eq_mapSites]
      cases ofArguments other (path.child inner) inner args with
      | error e => rfl
      | ok args =>
          exact congrArg (fun e => Except.ok [e]) (ofCall_mapSites resolve other path inner args)
  | _, _, .object [] => rfl
  | _, _, .object (_ :: _ :: _) => rfl
  | _, _, .null => rfl
  | _, _, .bool _ => rfl
  | _, _, .number _ => rfl
  | _, _, .string _ => rfl
termination_by structural _ _ v => v

theorem ofRules_eq_mapSites : ∀ (path : Pointer) (i : Nat) (items : List Value),
    ofRules resolve path i items =
      List.map (mapSites (CallSite.withSlot resolve)) <$> ofRules other path i items
  | _, _, [] => rfl
  | path, i, v :: rest => by
      rw [ofRules, ofRules, ofRule_eq_mapSites, ofRules_eq_mapSites]
      cases ofRule other (path.element i) v with
      | error e => rfl
      | ok node =>
          cases ofRules other path (i + 1) rest with
          | error e => rfl
          | ok nodes => rfl
termination_by structural _ _ items => items

end

end Expr

namespace Registry

variable {σ : Type} {r : Registry σ} {v : Value} {rule : CompiledRule}

theorem ofRule_of_compiled (h : r.compiled v = .ok rule) :
    Expr.ofRule r.resolve? .root v = .ok rule.root ∧ rule.registryId = r.id := by
  rw [compiled] at h
  cases hroot : Expr.ofRule r.resolve? .root v with
  | error e =>
      rw [hroot] at h
      cases h
  | ok root =>
      rw [hroot] at h
      cases h
      exact ⟨rfl, rfl⟩

theorem slot_of_compiled (h : r.compiled v = .ok rule) {site : CallSite}
    (hsite : site ∈ rule.root.sites) : site.slot = r.resolve? site.name := by
  have hroot := (ofRule_of_compiled h).1
  -- Looking up all slots anew in the same registry does not change the tree.
  have hfixed := Expr.ofRule_eq_mapSites r.resolve? r.resolve? .root v
  rw [hroot] at hfixed
  have hroots : rule.root = rule.root.mapSites (CallSite.withSlot r.resolve?) :=
    Except.ok.inj hfixed
  rw [hroots, Expr.sites_mapSites] at hsite
  obtain ⟨origin, _, rfl⟩ := List.mem_map.mp hsite
  rfl

end Registry

end JsonRules
