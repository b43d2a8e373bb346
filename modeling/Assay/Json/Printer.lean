import Assay.Double.Decimal
import Assay.Json.Basic
/-!
# Compact JSON text

A value is written without blanks, in the order of its keys.  Strings escape what JSON requires and nothing more, and a
double never reads as an integer: a whole one ends in `.0` or carries an exponent.
-/
namespace Assay

/-- Doubles in JSON: places are written out for leading exponents from -5 to 15, a whole number ends in `.0`, and a
tie between two shortest decimals goes to the even digit. -/
def jsonDecimals : DecimalStyle where
  tie := .even
  positional e := -5 ≤ e && e < 16
  wholeMark := ".0"

namespace Json

def hexDigit (n : Nat) : Char := Nat.digitChar n

/-- One character of a string, escaped if it is a quote, a backslash or below U+0020. -/
def escape (c : Char) : String :=
  if c = '"' then "\\\""
  else if c = '\\' then "\\\\"
  else if c = '\x08' then "\\b"
  else if c = '\x0c' then "\\f"
  else if c = '\n' then "\\n"
  else if c = '\r' then "\\r"
  else if c = '\t' then "\\t"
  else if c.toNat < 0x20 then "\\u00" ++ String.ofList [hexDigit (c.toNat / 16), hexDigit (c.toNat % 16)]
  else String.singleton c

def quote (s : String) : String := "\"" ++ String.join (s.toList.map escape) ++ "\""

end Json

def Number.render : Number → String
  | .integer n _ => (if n < 0 then "-" else "") ++ decimalDigits n.natAbs
  | .double x => jsonDecimals.render x

namespace Json

mutual

def render : Json → String
  | .null => "null"
  | .bool true => "true"
  | .bool false => "false"
  | .number n => n.render
  | .string s => quote s
  | .array items => "[" ++ ",".intercalate (renderAll items) ++ "]"
  | .object entries => "\x7b" ++ ",".intercalate (renderEntries entries) ++ "\x7d"

def renderAll : List Json → List String
  | [] => []
  | v :: rest => render v :: renderAll rest

def renderEntries : List (String × Json) → List String
  | [] => []
  | (k, v) :: rest => (quote k ++ ":" ++ render v) :: renderEntries rest

end

end Json

end Assay
