import Assay.Tree.Allows
import Assay.Violation
/-!
# The full diagnosis

Every violation of a tree by a value: the fields of an object in the order of their declaration and then its undeclared
keys, the items of arrays and tuples by index.  A union, a literal, a format and a range are refused as a whole.
-/
namespace Assay

/-- The violations of a check at each item, under the item's index. -/
def itemViolations (check : Json → List Violation) : Nat → List Json → List Violation
  | _, [] => []
  | i, v :: vs => (check v).map (·.under (.index i)) ++ itemViolations check (i + 1) vs

/-- The mismatch of a value with a tuple: a wrong length, or no array at all. -/
def tupleMismatch (length : Nat) (v : Json) : Violation :=
  let actual := match v with
    | .array items => "array of length " ++ decimalDigits items.length
    | _ => v.summary
  ⟨[], .typeMismatch, expectedTuple length, actual⟩

namespace Constraint

def rule : Constraint → Rule
  | range _ _ _ => .rangeViolation
  | format _ => .formatViolation
  | literal _ => .unionExhausted
  | union _ => .unionExhausted
  | _ => .typeMismatch

/-- The violation of a constraint that is decided as a whole. -/
def refusal (allow : String → Json → Bool) (c : Constraint) (v : Json) : List Violation :=
  if c.allows allow v then [] else [.ofValue c.rule c.render v]

mutual

/-- The violations of a constraint.  Inside unions references are decided by `allow`, elsewhere their violations are
those of `follow`. -/
def violations (allow : String → Json → Bool) (follow : String → Json → List Violation) :
    Constraint → Json → List Violation
  | array c, v => match v with
    | .array items => itemViolations (violations allow follow c) 0 items
    | _ => [.ofValue .typeMismatch (array c).render v]
  | tuple cs, v => match v with
    | .array items =>
      if items.length = cs.length then violationsEach allow follow 0 cs items else [tupleMismatch cs.length v]
    | _ => [tupleMismatch cs.length v]
  | optional c, v => violations allow follow c v
  | reference n, v => follow n v
  | kind k, v => (kind k).refusal allow v
  | range k min max, v => (range k min max).refusal allow v
  | format f, v => (format f).refusal allow v
  | literal l, v => (literal l).refusal allow v
  | union cs, v => (union cs).refusal allow v

/-- The violations at each place of a tuple, under its index. -/
def violationsEach (allow : String → Json → Bool) (follow : String → Json → List Violation) :
    Nat → List Constraint → List Json → List Violation
  | i, c :: cs, v :: vs =>
    (violations allow follow c v).map (·.under (.index i)) ++ violationsEach allow follow (i + 1) cs vs
  | _, _, _ => []

end

end Constraint

def extraViolations (fields : List Field) (entries : List (String × Json)) : List Violation :=
  (entries.filter fun e => !declares fields e.1).map fun (k, v) =>
    (Violation.ofValue .extraField "absent (undeclared key)" v).under (.key k)

namespace Tree

mutual

/-- The violations of a tree by a value, with references as in `Constraint.violations`. -/
def violations (allow : String → Json → Bool) (follow : String → Json → List Violation) :
    Tree → Json → List Violation
  | leaf c, v => c.violations allow follow v
  | object fields policy, v => match v with
    | .object entries =>
      violationsFields allow follow fields entries ++
        (if policy = .reject then extraViolations fields entries else [])
    | _ => [.ofValue .typeMismatch "object" v]
  | array t, v => match v with
    | .array items => itemViolations (violations allow follow t) 0 items
    | _ => [.ofValue .typeMismatch "array" v]
  | tuple ts, v => match v with
    | .array items =>
      if items.length = ts.length then violationsEach allow follow 0 ts items else [tupleMismatch ts.length v]
    | _ => [tupleMismatch ts.length v]

def violationsFields (allow : String → Json → Bool) (follow : String → Json → List Violation) :
    List Field → List (String × Json) → List Violation
  | [], _ => []
  | ⟨name, optional, t⟩ :: fields, entries =>
    (match entries.lookup name with
      | some v => (violations allow follow t v).map (·.under (.key name))
      | none => if optional then [] else [⟨[.key name], .missingRequiredField, t.expected, "missing"⟩])
      ++ violationsFields allow follow fields entries

/-- The violations at each place of a tuple, under its index. -/
def violationsEach (allow : String → Json → Bool) (follow : String → Json → List Violation) :
    Nat → List Tree → List Json → List Violation
  | i, t :: ts, v :: vs =>
    (violations allow follow t v).map (·.under (.index i)) ++ violationsEach allow follow (i + 1) ts vs
  | _, _, _ => []

end

end Tree

namespace Definitions

def unknown (name : String) (v : Json) : Violation := .ofValue .typeMismatch ("definition '" ++ name ++ "'") v

def tooDeep (limit : Nat) (name : String) : Violation :=
  ⟨[], .depthExceeded, name ++ " within " ++ decimalDigits limit ++ " nested references",
    "reference depth " ++ decimalDigits (limit + 1)⟩

/-- The violations of the definition of a name, following at most `budget` of `limit` nested references. -/
def violations (defs : Definitions) (limit : Nat) : (budget : Nat) → String → Json → List Violation
  | 0, name, v => match defs.lookup name with
    | some _ => [tooDeep limit name]
    | none => [unknown name v]
  | budget + 1, name, v => match defs.lookup name with
    | some t => t.violations (defs.allows budget) (violations defs limit budget) v
    | none => [unknown name v]

end Definitions

end Assay
