import Assay.Text.Alphabetic
import Assay.Text.Lowercase
import Assay.Text.Numeric
import Assay.Text.Uppercase
/-!
# Character classes

The Unicode classes that expressions and formats are written in.  ASCII is decided by its own short rules, and every
other character by the edges of the property.
-/
namespace Assay.Text

/-- Whether an odd number of edges is at or below the code point. -/
def within (edges : List Nat) (code : Nat) : Bool := edges.countP (· ≤ code) % 2 == 1

def isAlphabetic (c : Char) : Bool := if c.toNat < 0x80 then c.isAlpha else within alphabeticEdges c.toNat

/-- The Unicode categories of numbers: decimal digits, letter numbers and other numbers. -/
def isNumeric (c : Char) : Bool := if c.toNat < 0x80 then c.isDigit else within numericEdges c.toNat

def isAlphanumeric (c : Char) : Bool := isAlphabetic c || isNumeric c

def isUppercase (c : Char) : Bool := if c.toNat < 0x80 then c.isUpper else within uppercaseEdges c.toNat

def isLowercase (c : Char) : Bool := if c.toNat < 0x80 then c.isLower else within lowercaseEdges c.toNat

def isBlank (c : Char) : Bool :=
  let n := c.toNat
  (0x09 ≤ n && n ≤ 0x0d) || n == 0x20 || n == 0x85 || n == 0xa0 || n == 0x1680 || (0x2000 ≤ n && n ≤ 0x200a)
    || n == 0x2028 || n == 0x2029 || n == 0x202f || n == 0x205f || n == 0x3000

end Assay.Text
