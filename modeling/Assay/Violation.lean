import Assay.Json.Printer
import Assay.Path
/-!
# Violations

A violation says where a value breaks a rule, what was expected there and what was found.  Its path starts at the value
that was checked; a container puts its own step in front of the violations of what it contains.
-/
namespace Assay

inductive Rule
  | typeMismatch
  | rangeViolation
  | formatViolation
  | missingRequiredField
  | unionExhausted
  | extraField
  | depthExceeded
  deriving DecidableEq

namespace Rule

def code : Rule → String
  | typeMismatch => "type-mismatch"
  | rangeViolation => "range-violation"
  | formatViolation => "format-violation"
  | missingRequiredField => "missing-required-field"
  | unionExhausted => "union-exhausted"
  | extraField => "extra-field"
  | depthExceeded => "depth-exceeded"

def all : List Rule :=
  [typeMismatch, rangeViolation, formatViolation, missingRequiredField, unionExhausted, extraField, depthExceeded]

def ofCode? (s : String) : Option Rule := all.find? (·.code == s)

end Rule

/-- The most characters of a value's text that a violation shows. -/
def summaryLimit : Nat := 64

/-- The text of a value, cut with an ellipsis if it is long. -/
def Json.summary (v : Json) : String :=
  let text := v.render
  if text.length ≤ summaryLimit then text else String.ofList (text.toList.take summaryLimit) ++ "…"

structure Violation where
  path : Path
  rule : Rule
  expected : String
  actual : String
  deriving DecidableEq

namespace Violation

def ofValue (rule : Rule) (expected : String) (v : Json) : Violation := ⟨[], rule, expected, v.summary⟩

/-- The violation as seen from the container that reaches the value by the step `s`. -/
def under (s : Segment) (v : Violation) : Violation := { v with path := s :: v.path }

def message (v : Violation) : String := "expected " ++ v.expected ++ ", got " ++ v.actual

/-- The path, or a word for the root, and the message. -/
def render (v : Violation) : String := (if v.path.isRoot then "(root)" else v.path.render) ++ ": " ++ v.message

end Violation

end Assay
