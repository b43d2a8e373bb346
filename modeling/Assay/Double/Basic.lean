/-!
# Doubles

A finite double is a sign and a whole number of units of 2⁻¹⁰⁷⁴, the smallest positive double, of which it keeps 53
significant bits.  Counting in units makes order, integrality and truncation plain facts about integers: no operation
below rounds except `Double.ofRatio`, which goes to the nearest double and lets a tie fall on the even neighbour.
-/
namespace Assay

def unitsPerOne : Nat := Nat.pow 2 1074

/-- The number of units in 2¹⁰²⁴, which no finite double reaches. -/
def unitsLimit : Nat := Nat.pow 2 2098

theorem unitsLimit_pos : 0 < unitsLimit := by decide +kernel

/-- The gap between neighbouring doubles at `u` units: one unit below 2⁵³, and then the weight of the 53rd bit. -/
def ulp (u : Nat) : Nat := Nat.pow 2 (u.log2 - 52)

/-- The magnitudes of finite doubles: whole multiples of their own gap, below 2¹⁰²⁴. -/
def Representable (u : Nat) : Prop := ulp u ∣ u ∧ u < unitsLimit

instance (u : Nat) : Decidable (Representable u) := inferInstanceAs (Decidable (_ ∧ _))

/-- A double other than an infinity or a NaN.  Zero has two signs. -/
structure FiniteDouble where
  negative : Bool
  units : Nat
  representable : Representable units
  deriving DecidableEq

inductive Double
  | finite (x : FiniteDouble)
  | infinite (negative : Bool)
  | nan
  deriving DecidableEq

/-- The quotient `num / den` as a whole number, a half going to the even neighbour. -/
def roundHalfEven (num den : Nat) : Nat :=
  let q := num / den
  let r := num % den
  if 2 * r < den ∨ (2 * r = den ∧ q % 2 = 0) then q else q + 1

/-- The quotient `num / den` in units, rounded to 53 significant bits. -/
def roundUnits (num den : Nat) : Nat :=
  let gap := ulp (num / den)
  roundHalfEven num (den * gap) * gap

namespace FiniteDouble

def zero : FiniteDouble := ⟨false, 0, Nat.dvd_zero _, unitsLimit_pos⟩

def signedUnits (x : FiniteDouble) : Int := if x.negative then -(x.units : Int) else x.units

def isIntegral (x : FiniteDouble) : Bool := x.units % unitsPerOne == 0

def truncate (x : FiniteDouble) : Int := x.signedUnits.tdiv unitsPerOne

def neg (x : FiniteDouble) : FiniteDouble := { x with negative := !x.negative }

end FiniteDouble

namespace Double

/-- The double nearest to `num / den` with the given sign.  A magnitude past the largest double is infinite. -/
def ofRatio (negative : Bool) (num den : Nat) : Double :=
  let u := roundUnits (num * unitsPerOne) den
  if h : Representable u then .finite ⟨negative, u, h⟩ else .infinite negative

def ofInt (n : Int) : Double := ofRatio (n < 0) n.natAbs 1

def ofNat (n : Nat) : Double := ofInt n

/-- The double nearest to `coefficient · 10 ^ exponent`. -/
def ofDecimal (negative : Bool) (coefficient : Nat) : (exponent : Int) → Double
  | .ofNat k => ofRatio negative (coefficient * Nat.pow 10 k) 1
  | .negSucc k => ofRatio negative coefficient (Nat.pow 10 (k + 1))

def product (x y : FiniteDouble) : Double :=
  ofRatio (x.negative != y.negative) (x.units * y.units) (unitsPerOne * unitsPerOne)

/-- The quotient of two finite doubles, rounded once; the divisor is not zero. -/
def quotient (x y : FiniteDouble) : Double := ofRatio (x.negative != y.negative) x.units y.units

/-- The place on the line of units, where an infinity stands one past the largest double.  A NaN has none. -/
def place? : Double → Option Int
  | .finite x => some x.signedUnits
  | .infinite false => some unitsLimit
  | .infinite true => some (-unitsLimit)
  | .nan => none

/-- Numeric equality: the two zeros are equal, and a NaN is equal to nothing. -/
protected def beq (a b : Double) : Bool :=
  match a.place?, b.place? with
  | some i, some j => i == j
  | _, _ => false

instance : BEq Double := ⟨Double.beq⟩

/-- Whether `a < b`, false when either is a NaN. -/
def lt (a b : Double) : Bool :=
  match a.place?, b.place? with
  | some i, some j => i < j
  | _, _ => false

def le (a b : Double) : Bool :=
  match a.place?, b.place? with
  | some i, some j => i ≤ j
  | _, _ => false

def isFinite : Double → Bool
  | .finite _ => true
  | _ => false

def isIntegral : Double → Bool
  | .finite x => x.isIntegral
  | _ => false

end Double

end Assay
