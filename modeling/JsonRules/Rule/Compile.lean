import JsonRules.Rule.Expr
import JsonRules.Error

/-!
# Compiling rules

An object with one member is an operator call wherever a rule is expected; any other object is data.
Arrays are gone through element by element and stay data if nothing in them is a call.  The argument
of a call is an array of arguments or a single one, and no other object than a call.
-/

namespace JsonRules.Expr

/-- The node of an array: data if all its elements are. -/
def ofNodes (nodes : List Expr) : Expr :=
  match nodes.mapM asLiteral? with
  | some values => literal (.array values)
  | none => array nodes

/-- The node of a call at a place, with its operator looked up by `resolve`. -/
def ofCall (resolve : String → Option Nat) (path : Pointer) (name : String) (args : List Expr) :
    Expr :=
  call ⟨name, resolve name, path⟩ args

mutual

def ofRule (resolve : String → Option Nat) : (path : Pointer) → Value → Except Error Expr
  | path, .array items => do
      let nodes ← ofRules resolve path 0 items
      pure (ofNodes nodes)
  | path, .object [(name, args)] => do
      let args ← ofArguments resolve (path.child name) name args
      pure (ofCall resolve path name args)
  | _, v => pure (literal v)
termination_by structural _ v => v

/-- The argument trees of the call of `name`; `path` is the place of its argument. -/
def ofArguments (resolve : String → Option Nat) :
    (path : Pointer) → (name : String) → Value → Except Error (List Expr)
  | path, _, .array items => ofRules resolve path 0 items
  | path, _, .object [(inner, args)] => do
      let args ← ofArguments resolve (path.child inner) inner args
      pure [ofCall resolve path inner args]
  | path, name, .object _ => throw (.malformedArguments path.text name)
  | _, _, v => pure [literal v]
termination_by structural _ _ v => v

/-- The trees of the elements of an array from position `i` on. -/
def ofRules (resolve : String → Option Nat) :
    (path : Pointer) → (i : Nat) → List Value → Except Error (List Expr)
  | _, _, [] => pure []
  | path, i, v :: rest => do
      let node ← ofRule resolve (path.element i) v
      let nodes ← ofRules resolve path (i + 1) rest
      pure (node :: nodes)
termination_by structural _ _ items => items

end

end JsonRules.Expr
