import JsonRules.Registry
import JsonRules.Rule.Expr

/-!
# Evaluation contexts

A context is what an evaluation goes by: the registry, whether the slots remembered in the rule belong
to it, and how deep calls and arrays are nested at the moment.
-/

namespace JsonRules

/-- A rule compiled against the registry of the given identity. -/
structure CompiledRule where
  root : Expr
  registryId : RegistryId

namespace CompiledRule

def toRule (rule : CompiledRule) : Value := rule.root.toRule

instance : BEq CompiledRule :=
  ⟨fun rule other => rule.root == other.root && rule.registryId == other.registryId⟩

end CompiledRule

structure Context (σ : Type) where
  registry : Registry σ
  /-- Whether remembered slots are those of the registry. -/
  bound : Bool
  depth : Nat
  maxDepth : Option Nat

namespace Context

variable {σ : Type}

def new (registry : Registry σ) (rule : CompiledRule) (maxDepth : Option Nat) : Context σ where
  registry
  bound := rule.registryId == registry.id
  depth := 0
  maxDepth

/-- The operator of a call: that of the remembered slot if there is one and it can be relied on, else
that of the name. -/
def operator? (c : Context σ) (site : CallSite) : Option (Operator σ) :=
  match site.slot with
  | some slot => if c.bound then c.registry.get? slot else c.registry.lookup? site.name
  | none => c.registry.lookup? site.name

def deeper (c : Context σ) : Context σ := { c with depth := c.depth + 1 }

def leave (c : Context σ) : Context σ := { c with depth := c.depth - 1 }

/-- The limit, if the depth is beyond it. -/
def exceeded? (c : Context σ) : Option Nat := c.maxDepth.filter (· < c.depth)

end Context

end JsonRules
