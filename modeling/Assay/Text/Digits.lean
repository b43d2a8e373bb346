/-!
# Decimal digits

Runs of ASCII digits and the numbers they spell.
-/
namespace Assay

/-- The decimal digits of a number, without leading zeros. -/
def decimalDigits (n : Nat) : String := String.ofList (Nat.toDigits 10 n)

def digitValue (c : Char) : Nat := c.toNat - '0'.toNat

def digitsValue (digits : List Char) : Nat := digits.foldl (fun n c => n * 10 + digitValue c) 0

end Assay
