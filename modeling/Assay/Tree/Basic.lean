import Assay.Constraint.Printer
/-!
# Validator trees

A compiled schema is a tree: constraints at the leaves, objects, arrays and tuples inside.  An object holds its fields
in the order of their declaration and a resolved policy for the keys it does not declare.
-/
namespace Assay

/-- What becomes of the keys of an object that its schema does not declare. -/
inductive Policy
  | allow
  | reject
  /-- They are left out of the normalized value. -/
  | strip
  deriving DecidableEq

mutual

inductive Tree
  | leaf (c : Constraint)
  | object (fields : List Field) (policy : Policy)
  | array (item : Tree)
  /-- An array of exactly these items. -/
  | tuple (items : List Tree)

structure Field where
  name : String
  optional : Bool
  node : Tree

end

/-- What a mismatch of a tuple's length expects. -/
def expectedTuple (length : Nat) : String := "tuple of length " ++ decimalDigits length

namespace Tree

def expected : Tree → String
  | leaf c => c.render
  | object _ _ => "object"
  | array _ => "array"
  | tuple items => expectedTuple items.length

/-- The names that are followed before any part of the value is looked at. -/
def heads : Tree → List String
  | leaf c => c.heads
  | _ => []

def isOptional : Tree → Bool
  | leaf c => c.isOptional
  | _ => false

/-- The tree without an optional marker at its root, and whether there was one. -/
def splitOptional : Tree → Tree × Bool
  | leaf c => let (c, marked) := c.splitOptional; (leaf c, marked)
  | t => (t, false)

end Tree

def declares (fields : List Field) (key : String) : Bool := fields.any (·.name == key)

/-- Definitions of a scope that were compiled together, in the order of their definition. -/
abbrev Definitions := List (String × Tree)

end Assay
