import Assay.Constraint.Basic
import Assay.Double.Decimal
/-!
# The text of constraints

A constraint is written as the expression that denotes it: alternatives are joined by bars, a compound constraint is
put in parentheses before brackets, and a range is written around its kind or after it.
-/
namespace Assay

/-- Doubles in expressions: all places are written out, a whole number has no point, and a tie between two shortest
decimals goes up. -/
def expressionDecimals : DecimalStyle where
  tie := .up
  positional _ := true
  wholeMark := ""

def Double.render : Double → String
  | .finite x => expressionDecimals.render x
  | .infinite false => "inf"
  | .infinite true => "-inf"
  | .nan => "NaN"

namespace Literal

/-- One character of a string literal: a quote and a backslash take a backslash in front. -/
def escape (c : Char) : List Char := if c = '\'' ∨ c = '\\' then ['\\', c] else [c]

def quote (s : String) : String := "'" ++ String.ofList (s.toList.flatMap escape) ++ "'"

def render : Literal → String
  | string s => quote s
  | number x => x.render
  | boolean true => "true"
  | boolean false => "false"
  | null => "null"

end Literal

namespace Bound

/-- The operator of a lower bound to its right, and of an upper bound to its left. -/
def operator (b : Bound) : String := if b.inclusive then "<=" else "<"

/-- The operator of a lower bound to its left. -/
def reversed (b : Bound) : String := if b.inclusive then ">=" else ">"

end Bound

namespace Constraint

def renderRange (k : Kind) : Option Bound → Option Bound → String
  | none, none => k.keyword
  | some lo, none => k.keyword ++ " " ++ lo.reversed ++ " " ++ lo.value.render
  | none, some hi => k.keyword ++ " " ++ hi.operator ++ " " ++ hi.value.render
  | some lo, some hi =>
    if lo.value == hi.value && lo.inclusive && hi.inclusive then k.keyword ++ " == " ++ lo.value.render
    else lo.value.render ++ " " ++ lo.operator ++ " " ++ k.keyword ++ " " ++ hi.operator ++ " " ++ hi.value.render

/-- Whether the text needs parentheses before brackets. -/
def isCompound : Constraint → Bool
  | union _ => true
  | range _ _ _ => true
  | optional _ => true
  | _ => false

mutual

def render : Constraint → String
  | kind k => k.keyword
  | range k min max => renderRange k min max
  | format f => "string." ++ f.suffix
  | literal l => l.render
  | union cs => " | ".intercalate (renderAll cs)
  | array c => if c.isCompound then "(" ++ render c ++ ")[]" else render c ++ "[]"
  | tuple cs => "[" ++ ", ".intercalate (renderAll cs) ++ "]"
  | optional c => render c ++ "?"
  | reference n => n

def renderAll : List Constraint → List String
  | [] => []
  | c :: cs => render c :: renderAll cs

end

end Constraint

end Assay
