import Assay.Double.Basic
/-!
# JSON values

A number keeps its token's kind: an integer of 64 bits, signed or unsigned, or a finite double, so that `1` and `1.0`
are different values.  An object keeps the order of its keys.
-/
namespace Assay

/-- The integers that a number token carries as such: those of 64 bits, with a sign or without. -/
def FitsInteger (n : Int) : Prop := -0x8000000000000000 ≤ n ∧ n < 0x10000000000000000

instance (n : Int) : Decidable (FitsInteger n) := inferInstanceAs (Decidable (_ ∧ _))

/-- A number token: an integer of 64 bits, or a finite double. -/
inductive Number
  | integer (n : Int) (fits : FitsInteger n)
  | double (x : FiniteDouble)
  deriving DecidableEq

namespace Number

def toDouble : Number → Double
  | .integer n _ => Double.ofInt n
  | .double x => .finite x

def isIntegral : Number → Bool
  | .integer _ _ => true
  | .double x => x.isIntegral

/-- The number token of `n`: an integer if it fits one, and else the double nearest to it. -/
def ofInt (n : Int) : Option Number :=
  if h : FitsInteger n then some (.integer n h)
  else match Double.ofInt n with
    | .finite x => some (.double x)
    | _ => none

end Number

inductive Json
  | null
  | bool (b : Bool)
  | number (n : Number)
  | string (s : String)
  | array (items : List Json)
  | object (entries : List (String × Json))

namespace Json

/-- The entries with `key` bound to `value`: a new key comes last, a known key keeps its place. -/
def bind (key : String) (value : Json) : List (String × Json) → List (String × Json)
  | [] => [(key, value)]
  | (k, v) :: rest => if k = key then (key, value) :: rest else (k, v) :: bind key value rest

mutual

/-- Whether no object inside the value has a key twice. -/
def distinctKeys : Json → Bool
  | .array items => distinctKeysAll items
  | .object entries => decide (entries.map (·.1)).Nodup && distinctKeysEntries entries
  | _ => true

def distinctKeysAll : List Json → Bool
  | [] => true
  | v :: rest => distinctKeys v && distinctKeysAll rest

def distinctKeysEntries : List (String × Json) → Bool
  | [] => true
  | (_, v) :: rest => distinctKeys v && distinctKeysEntries rest

end

end Json

end Assay
