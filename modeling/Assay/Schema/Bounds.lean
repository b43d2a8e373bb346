import Assay.Constraint.Basic
/-!
# Bounded kinds, step by step

Strings by length and numbers by value, built by setting one end after another; an end keeps what was set last.  Without
any end the constraint is the bare kind.
-/
namespace Assay

/-- The bare kind without bounds, and else the range. -/
def Constraint.bounded (k : Kind) : (min max : Option Bound) → Constraint
  | none, none => .kind k
  | min, max => .range k min max

structure StringBounds where
  min : Option Bound := none
  max : Option Bound := none

namespace StringBounds

def minLength (b : StringBounds) (n : Nat) : StringBounds := { b with min := some ⟨.ofNat n, true⟩ }

def maxLength (b : StringBounds) (n : Nat) : StringBounds := { b with max := some ⟨.ofNat n, true⟩ }

def exactLength (b : StringBounds) (n : Nat) : StringBounds := (b.minLength n).maxLength n

def toConstraint (b : StringBounds) : Constraint := .bounded .string b.min b.max

end StringBounds

structure NumberBounds where
  kind : Kind := .number
  min : Option Bound := none
  max : Option Bound := none

namespace NumberBounds

def integer (b : NumberBounds) : NumberBounds := { b with kind := .integer }

def gt (b : NumberBounds) (x : Double) : NumberBounds := { b with min := some ⟨x, false⟩ }

def ge (b : NumberBounds) (x : Double) : NumberBounds := { b with min := some ⟨x, true⟩ }

def lt (b : NumberBounds) (x : Double) : NumberBounds := { b with max := some ⟨x, false⟩ }

def le (b : NumberBounds) (x : Double) : NumberBounds := { b with max := some ⟨x, true⟩ }

def between (b : NumberBounds) (lo hi : Double) : NumberBounds := (b.ge lo).le hi

def positive (b : NumberBounds) : NumberBounds := b.gt (.ofNat 0)

def nonNegative (b : NumberBounds) : NumberBounds := b.ge (.ofNat 0)

def negative (b : NumberBounds) : NumberBounds := b.lt (.ofNat 0)

def toConstraint (b : NumberBounds) : Constraint := .bounded b.kind b.min b.max

end NumberBounds

end Assay
