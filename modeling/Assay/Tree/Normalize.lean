import Assay.Json.Basic
import Assay.Tree.Basic
/-!
# Normalized values

A valid value is returned in normal form: where a constraint admits integers alone, a whole double becomes an integer,
and the undeclared keys of an object go if its policy strips them.  All else, the order of keys included, stays.
-/
namespace Assay

/-- A double as an integer, without its fractional part, if it is within 64 bits with a sign. -/
def Json.asInteger : Json → Json
  | .number (.double x) =>
    if h : -0x8000000000000000 ≤ x.truncate ∧ x.truncate < 0x8000000000000000 then
      .number (.integer x.truncate ⟨h.1, by omega⟩)
    else .number (.double x)
  | v => v

namespace Constraint

/-- Whether the constraint admits all numbers of some range, whole or not. -/
def isNumeric : Constraint → Bool
  | kind .number => true
  | range .number _ _ => true
  | _ => false

mutual

/-- Whether the constraint is over integers: an integer kind, or a union with such an alternative and without one over
all numbers. -/
def isIntegral : Constraint → Bool
  | kind k => k == .integer
  | range k _ _ => k == .integer
  | union cs => isIntegralAny cs && !cs.any isNumeric
  | _ => false

def isIntegralAny : List Constraint → Bool
  | [] => false
  | c :: cs => isIntegral c || isIntegralAny cs

end

mutual

def normalize (follow : String → Json → Json) : Constraint → Json → Json
  | array c, v => match v with
    | .array items => .array (items.map (normalize follow c))
    | _ => v
  | tuple cs, v => match v with
    | .array items => .array (normalizeEach follow cs items)
    | _ => v
  | optional c, v => normalize follow c v
  | reference n, v => follow n v
  | kind k, v => if (kind k).isIntegral then v.asInteger else v
  | range k min max, v => if (range k min max).isIntegral then v.asInteger else v
  | union cs, v => if (union cs).isIntegral then v.asInteger else v
  | format _, v => v
  | literal _, v => v

def normalizeEach (follow : String → Json → Json) : List Constraint → List Json → List Json
  | c :: cs, v :: vs => normalize follow c v :: normalizeEach follow cs vs
  | _, vs => vs

end

end Constraint

namespace Tree

mutual

/-- The normal form of a value that the tree allows. -/
def normalize (follow : String → Json → Json) : Tree → Json → Json
  | leaf c, v => c.normalize follow v
  | object fields policy, v => match v with
    | .object entries => .object (entries.filterMap fun (k, x) =>
      match normalizeField follow fields k x with
      | some y => some (k, y)
      | none => if policy = .strip then none else some (k, x))
    | _ => v
  | array t, v => match v with
    | .array items => .array (items.map (normalize follow t))
    | _ => v
  | tuple ts, v => match v with
    | .array items => .array (normalizeEach follow ts items)
    | _ => v

/-- The normal form of a value at a key, if a field declares it. -/
def normalizeField (follow : String → Json → Json) : List Field → String → Json → Option Json
  | [], _, _ => none
  | ⟨name, _, t⟩ :: fields, k, v =>
    if name = k then some (normalize follow t v) else normalizeField follow fields k v

def normalizeEach (follow : String → Json → Json) : List Tree → List Json → List Json
  | t :: ts, v :: vs => normalize follow t v :: normalizeEach follow ts vs
  | _, vs => vs

end

end Tree

namespace Definitions

def normalize (defs : Definitions) : (budget : Nat) → String → Json → Json
  | 0, _, v => v
  | budget + 1, name, v => match defs.lookup name with
    | some t => t.normalize (normalize defs budget) v
    | none => v

end Definitions

end Assay
