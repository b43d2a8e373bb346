import Assay.Constraint.Basic
import Assay.Json.Basic
/-!
# Which values a constraint allows

Kinds are exact: no value counts as another kind, and a number is an integer by value, not by spelling.  Numbers are
compared as doubles.  What a reference allows is a parameter, `follow`, so that the recursion here is on the constraint
alone.
-/
namespace Assay

namespace Kind

def admits : Kind → Json → Bool
  | string, .string _ => true
  | number, .number _ => true
  | integer, .number n => n.isIntegral
  | boolean, .bool _ => true
  | _, _ => false

/-- What a range over the kind compares: the number itself, or the length of the string. -/
def measure? : Kind → Json → Option Double
  | string, .string s => some (.ofNat s.length)
  | number, .number n => some n.toDouble
  | integer, .number n => if n.isIntegral then some n.toDouble else none
  | _, _ => none

def admitsWithin (k : Kind) (min max : Option Bound) (v : Json) : Bool :=
  match k.measure? v with
  | some x => min.all (·.admitsAbove x) && max.all (·.admitsBelow x)
  | none => false

end Kind

def Literal.admits : Literal → Json → Bool
  | string s, .string t => s == t
  | number x, .number n => n.toDouble == x
  | boolean b, .bool c => b == c
  | null, .null => true
  | _, _ => false

def Format.admitsValue (f : Format) : Json → Bool
  | .string s => f.admits s
  | _ => false

/-- The literal as a value; there is no value for an infinity and for a NaN but null. -/
def Literal.toJson : Literal → Json
  | string s => .string s
  | number (.finite x) => .number (.double x)
  | number _ => .null
  | boolean b => .bool b
  | null => .null

namespace Constraint

mutual

/-- Whether a constraint allows a value. -/
def allows (follow : String → Json → Bool) : Constraint → Json → Bool
  | kind k, v => k.admits v
  | range k min max, v => k.admitsWithin min max v
  | format f, v => f.admitsValue v
  | literal l, v => l.admits v
  | union cs, v => allowsAny follow cs v
  | array c, v => match v with
    | .array items => items.all (allows follow c)
    | _ => false
  | tuple cs, v => match v with
    | .array items => allowsEach follow cs items
    | _ => false
  | optional c, v => allows follow c v
  | reference n, v => follow n v

def allowsAny (follow : String → Json → Bool) : List Constraint → Json → Bool
  | [], _ => false
  | c :: cs, v => allows follow c v || allowsAny follow cs v

/-- Whether there are as many values as constraints, each allowed by the one in its place. -/
def allowsEach (follow : String → Json → Bool) : List Constraint → List Json → Bool
  | [], [] => true
  | c :: cs, v :: vs => allows follow c v && allowsEach follow cs vs
  | _, _ => false

end

end Constraint

end Assay
