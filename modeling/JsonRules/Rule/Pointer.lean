/-!
# Pointers into a rule

A pointer is a list of reference tokens: keys of objects and positions in arrays, from the root on.
Its text has a slash before each token; a tilde and a slash inside a token are escaped.
-/

namespace JsonRules

structure Pointer where
  tokens : List String
  deriving DecidableEq

namespace Pointer

def root : Pointer := ⟨[]⟩

def child (p : Pointer) (token : String) : Pointer := ⟨p.tokens ++ [token]⟩

def element (p : Pointer) (i : Nat) : Pointer := p.child i.repr

def escape (c : Char) : List Char :=
  if c = '~' then ['~', '0'] else if c = '/' then ['~', '1'] else [c]

def tokenText (token : String) : List Char := '/' :: token.toList.flatMap escape

def text (p : Pointer) : String := String.ofList (p.tokens.flatMap tokenText)

end Pointer

end JsonRules
