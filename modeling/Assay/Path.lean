import Assay.Text.Digits
/-!
# Paths

A path leads from a JSON value to a value inside it, by object keys and array indices from the outside in.
-/
namespace Assay

inductive Segment
  | key (name : String)
  | index (i : Nat)
  deriving DecidableEq

def Segment.render : Segment → String
  | key name => name
  | index i => decimalDigits i

/-- The steps from a value to one inside it; the empty path is the root. -/
abbrev Path := List Segment

namespace Path

def push (p : Path) (s : Segment) : Path := p ++ [s]

/-- The path without its last step; the root has none. -/
def parent? (p : Path) : Option Path := if p.isEmpty then none else some p.dropLast

def last? (p : Path) : Option Segment := p.getLast?

@[simp] theorem parent?_push (p : Path) (s : Segment) : (p.push s).parent? = some p := by
  simp [parent?, push]

@[simp] theorem last?_push (p : Path) (s : Segment) : (p.push s).last? = some s := by
  simp [last?, push]

def isRoot (p : Path) : Bool := p.isEmpty

def render (p : Path) : String := ".".intercalate (p.map Segment.render)

end Path

end Assay
