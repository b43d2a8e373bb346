import Assay.Expression.Error
/-!
# Well-formed constraints

A constraint is well formed when its unions have at least two alternatives, its ranges bound a kind that can be bounded
by an interval that is not empty, and an optional marker stands outermost only.
-/
namespace Assay

namespace Bound

/-- Refuses an infinite bound, a NaN, and a string length that is negative or not whole. -/
def check (k : Kind) (b : Bound) : Except ConstraintError Unit :=
  if !b.value.isFinite then .error (.invalidBound k b.value .notFinite)
  else if k == .string && (b.value.lt (.ofNat 0) || !b.value.isIntegral) then
    .error (.invalidBound k b.value .notLength)
  else .ok ()

/-- Whether nothing lies between two bounds, by their values alone. -/
def excludes (lo hi : Bound) : Bool :=
  hi.value.lt lo.value || (lo.value == hi.value && !(lo.inclusive && hi.inclusive))

end Bound

namespace Constraint

/-- Refuses a range over a kind without measure, a bound that the kind cannot have, and an empty interval. -/
def checkRange (k : Kind) (min max : Option Bound) : Except ConstraintError Unit := do
  if !k.isBoundable then throw (.unboundable (.kind k) 0)
  if let some lo := min then lo.check k
  if let some hi := max then hi.check k
  if let (some lo, some hi) := (min, max) then
    if lo.excludes hi then throw (.emptyRange lo.value hi.value)

mutual

/-- Refuses what is not well formed inside a constraint, where no optional marker may stand. -/
def checkInner : Constraint → Except ConstraintError Unit
  | range k min max => checkRange k min max
  | union cs => if cs.length < 2 then .error (.degenerateUnion cs.length) else checkAll cs
  | array c => checkInner c
  | tuple cs => checkAll cs
  | optional _ => .error (.misplacedOptional 0)
  | _ => .ok ()

def checkAll : List Constraint → Except ConstraintError Unit
  | [] => .ok ()
  | c :: cs => do
    checkInner c
    checkAll cs

end

def check : Constraint → Except ConstraintError Unit
  | optional c => checkInner c
  | c => checkInner c

end Constraint

end Assay
