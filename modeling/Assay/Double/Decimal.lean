import Assay.Double.Basic
import Assay.Text.Digits
/-!
# Shortest decimals

The shortest decimal of a finite double is the one on the coarsest grid of powers of ten that still reads back as that
double; of two such neighbours on one grid the nearer is taken.  A `DecimalStyle` then fixes how such a decimal is
written: which exponents are spelled out in full, what marks a whole number, and where an exact tie goes.
-/
namespace Assay

structure Decimal where
  coefficient : Nat
  exponent : Int
  deriving DecidableEq

/-- Which of two neighbours on a grid is taken when the value lies halfway. -/
inductive Tie
  | even
  | up
  deriving DecidableEq

namespace FiniteDouble

/-- The magnitude of `x` over `10 ^ exponent`, as a numerator and a denominator. -/
def overPower (x : FiniteDouble) : (exponent : Int) → Nat × Nat
  | .ofNat k => (x.units, unitsPerOne * Nat.pow 10 k)
  | .negSucc k => (x.units * Nat.pow 10 (k + 1), unitsPerOne)

/-- Whether `coefficient · 10 ^ exponent` rounds to the magnitude of `x`. -/
def readsBack (x : FiniteDouble) (coefficient : Nat) : (exponent : Int) → Bool
  | .ofNat k => roundUnits (coefficient * Nat.pow 10 k * unitsPerOne) 1 == x.units
  | .negSucc k => roundUnits (coefficient * unitsPerOne) (Nat.pow 10 (k + 1)) == x.units

/-- The coefficient on the grid of `10 ^ exponent` that reads back as `x`, if there is one: the value lies between
two neighbours, and the nearer that reads back is taken. -/
def gridPoint? (tie : Tie) (x : FiniteDouble) (exponent : Int) : Option Nat :=
  let (num, den) := x.overPower exponent
  let below := num / den
  let r := num % den
  match x.readsBack below exponent, x.readsBack (below + 1) exponent with
  | true, false => some below
  | false, true => some (below + 1)
  | false, false => none
  | true, true =>
    if 2 * r < den then some below
    else if den < 2 * r then some (below + 1)
    else match tie with
      | .up => some (below + 1)
      | .even => some (if below % 2 = 0 then below else below + 1)

/-- The search over the grids `10 ^ (n - 1074)` for falling `n`.  The last grid holds every finite double exactly. -/
def shortestFrom (tie : Tie) (x : FiniteDouble) : Nat → Decimal
  | 0 => ⟨x.units * Nat.pow 5 1074, -1074⟩
  | n + 1 =>
    let exponent := (n + 1 : Int) - 1074
    match x.gridPoint? tie exponent with
    | some c => ⟨c, exponent⟩
    | none => shortestFrom tie x n

/-- The shortest decimal that reads back as the magnitude of `x`.  The first grid tried is that of the power of ten
above the whole part; on a coarser one both neighbours are too far away. -/
def shortest (tie : Tie) (x : FiniteDouble) : Decimal :=
  if x.units = 0 then ⟨0, 0⟩
  else x.shortestFrom tie ((Nat.toDigits 10 (x.units / unitsPerOne)).length + 1074)

end FiniteDouble

structure DecimalStyle where
  /-- Where an exact tie between two shortest decimals goes. -/
  tie : Tie
  /-- The exponents of the leading digit for which all places are written out. -/
  positional : Int → Bool
  /-- What follows a whole number whose places are written out. -/
  wholeMark : String

namespace DecimalStyle

/-- The places of `d` written out in full, around a decimal point if there are any below one. -/
def plain (style : DecimalStyle) (d : Decimal) : String :=
  let digits := Nat.toDigits 10 d.coefficient
  match d.exponent with
  | .ofNat k => String.ofList (digits ++ List.replicate k '0') ++ style.wholeMark
  | .negSucc k =>
    let places := k + 1
    if places < digits.length then
      String.ofList (digits.take (digits.length - places)) ++ "." ++
        String.ofList (digits.drop (digits.length - places))
    else
      "0." ++ String.ofList (List.replicate (places - digits.length) '0' ++ digits)

/-- The leading digit, the other digits after a point, and the signed exponent. -/
def scientific (d : Decimal) (leading : Int) : String :=
  let digits := Nat.toDigits 10 d.coefficient
  let mantissa := match digits with
    | [] => ""
    | [c] => String.singleton c
    | c :: rest => String.singleton c ++ "." ++ String.ofList rest
  mantissa ++ (if leading < 0 then "e-" else "e+") ++ decimalDigits leading.natAbs

def render (style : DecimalStyle) (x : FiniteDouble) : String :=
  let d := x.shortest style.tie
  let leading := ((Nat.toDigits 10 d.coefficient).length : Int) - 1 + d.exponent
  let sign := if x.negative then "-" else ""
  sign ++ if style.positional leading then style.plain d else scientific d leading

end DecimalStyle

end Assay
