import Assay.Report
import Assay.Tree.Normalize
import Assay.Tree.Violations
/-!
# Validators

A validator is a compiled tree, with the definitions its references follow and a limit on how many of them may be
nested.  It answers quickly whether it allows a value, or in full with the normal form or a report.
-/
namespace Assay

structure Validator where
  root : Tree
  /-- The definitions of the scope that the tree belongs to, if it belongs to one. -/
  definitions : Option Definitions
  maxDepth : Nat

inductive Outcome
  /-- The value is valid; this is its normal form. -/
  | valid (normal : Json)
  | invalid (report : Report)

namespace Outcome

def isValid : Outcome → Bool
  | valid _ => true
  | invalid _ => false

end Outcome

namespace Validator

def scope (v : Validator) : Definitions := v.definitions.getD []

def allows (v : Validator) (x : Json) : Bool := v.root.allows (v.scope.allows v.maxDepth) x

def violations (v : Validator) (x : Json) : List Violation :=
  v.root.violations (v.scope.allows v.maxDepth) (v.scope.violations v.maxDepth v.maxDepth) x

def normalize (v : Validator) (x : Json) : Json := v.root.normalize (v.scope.normalize v.maxDepth) x

/-- The normal form of the value, or the report of all its violations. -/
def validate (v : Validator) (x : Json) : Outcome :=
  match Report.ofList? (v.violations x) with
  | none => .valid (v.normalize x)
  | some report => .invalid report

def validateAll (v : Validator) (xs : List Json) : List Outcome := xs.map v.validate

/-- The valid ones of some values, in their order. -/
def keepAllowed (v : Validator) (xs : List Json) : List Json := xs.filter v.allows

end Validator

end Assay
