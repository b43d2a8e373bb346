import Assay.Double.Basic
import Assay.Format.Basic
/-!
# Constraints

A constraint says which JSON values are allowed at one place: a kind, a bounded kind, a format, a literal, or a
combination of constraints.  `==` is numeric on the doubles inside, so a constraint with a NaN differs from itself and
one with `0` equals one with `-0`.
-/
namespace Assay

inductive Kind
  | string
  | number
  /-- Numbers without a fractional part. -/
  | integer
  | boolean
  deriving DecidableEq

namespace Kind

def keyword : Kind → String
  | string => "string"
  | number => "number"
  | integer => "number.integer"
  | boolean => "boolean"

/-- Whether a range may bound the kind: numbers by value, strings by length. -/
def isBoundable : Kind → Bool
  | boolean => false
  | _ => true

end Kind

structure Bound where
  value : Double
  inclusive : Bool
  deriving DecidableEq

namespace Bound

protected def beq (a b : Bound) : Bool := a.value == b.value && a.inclusive == b.inclusive

instance : BEq Bound := ⟨Bound.beq⟩

def admitsAbove (b : Bound) (x : Double) : Bool := if b.inclusive then b.value.le x else b.value.lt x

def admitsBelow (b : Bound) (x : Double) : Bool := if b.inclusive then x.le b.value else x.lt b.value

end Bound

inductive Literal
  | string (s : String)
  | number (x : Double)
  | boolean (b : Bool)
  | null
  deriving DecidableEq

namespace Literal

protected def beq : Literal → Literal → Bool
  | string s, string t => s == t
  | number x, number y => x == y
  | boolean b, boolean c => b == c
  | null, null => true
  | _, _ => false

instance : BEq Literal := ⟨Literal.beq⟩

end Literal

inductive Constraint
  | kind (k : Kind)
  | range (k : Kind) (min max : Option Bound)
  | format (f : Format)
  | literal (l : Literal)
  | union (alternatives : List Constraint)
  | array (item : Constraint)
  /-- An array of exactly these items. -/
  | tuple (items : List Constraint)
  /-- As the constraint of a field, that the field may be absent; elsewhere the same as `inner`. -/
  | optional (inner : Constraint)
  | reference (name : String)

namespace Constraint

mutual

protected def beq : Constraint → Constraint → Bool
  | kind k, kind k' => k == k'
  | range k min max, range k' min' max' => k == k' && min == min' && max == max'
  | format f, format f' => f == f'
  | literal l, literal l' => l == l'
  | union cs, union cs' => beqAll cs cs'
  | array c, array c' => Constraint.beq c c'
  | tuple cs, tuple cs' => beqAll cs cs'
  | optional c, optional c' => Constraint.beq c c'
  | reference n, reference n' => n == n'
  | _, _ => false

def beqAll : List Constraint → List Constraint → Bool
  | [], [] => true
  | c :: cs, c' :: cs' => Constraint.beq c c' && beqAll cs cs'
  | _, _ => false

end

instance : BEq Constraint := ⟨Constraint.beq⟩

/-- The alternatives of a union, and of anything else itself alone. -/
def branches : Constraint → List Constraint
  | union cs => cs
  | c => [c]

/-- The union of some constraints: nested unions are opened by one level, an alternative stands where it comes first,
and a single alternative stands for itself. -/
def oneOf (cs : List Constraint) : Constraint :=
  match (cs.flatMap branches).eraseDups with
  | [c] => c
  | distinct => union distinct

def isOptional : Constraint → Bool
  | optional _ => true
  | _ => false

/-- The constraint without an outer optional marker, and whether there was one. -/
def splitOptional : Constraint → Constraint × Bool
  | optional c => (c, true)
  | c => (c, false)

mutual

/-- The names that the constraint refers to, in order and with repetitions. -/
def references : Constraint → List String
  | reference n => [n]
  | union cs => referencesAll cs
  | tuple cs => referencesAll cs
  | array c => references c
  | optional c => references c
  | _ => []

def referencesAll : List Constraint → List String
  | [] => []
  | c :: cs => references c ++ referencesAll cs

end

mutual

/-- The names that are followed before any item of an array or a tuple is looked at. -/
def heads : Constraint → List String
  | reference n => [n]
  | union cs => headsAll cs
  | optional c => heads c
  | _ => []

def headsAll : List Constraint → List String
  | [] => []
  | c :: cs => heads c ++ headsAll cs

end

end Constraint

end Assay
