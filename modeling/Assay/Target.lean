import Assay.Shape.Of
/-!
# Typed reading

A target is a type that a caller wants a valid value in.  Reading a value at a target gives the value as the target
holds it, written as JSON again; a target has a shape of its own, so that whether every valid value can be read is
decided by two shapes.
-/
namespace Assay

inductive Target
  | text
  | flag
  /-- Any number, as the double nearest to it. -/
  | double
  /-- Integer tokens from `min` to `max`. -/
  | integer (min max : Int)
  | any
  | list (item : Target)
  /-- Null, or what the target inside reads. -/
  | optional (inner : Target)
  /-- A value for each name; an optional one may be absent from an object. -/
  | record (fields : List (String × Target))

namespace Target

/-- The integers of `bits` bits with a sign. -/
def signed (bits : Nat) : Target := integer (-Nat.pow 2 (bits - 1) : Int) (Nat.pow 2 (bits - 1) - 1 : Int)

def unsigned (bits : Nat) : Target := integer 0 (Nat.pow 2 bits - 1 : Int)

/-- A target that is held in a place of its own: it has the shape of what is held there and is read like it. -/
def boxed (t : Target) : Target := t

def isOptional : Target → Bool
  | optional _ => true
  | _ => false

mutual

def shape : Target → Shape
  | text => .string
  | flag => .boolean
  | double => .number
  | integer _ _ => .integer
  | any => .unknown
  | list t => .array (shape t)
  | optional t => .oneOf [shape t, .null]
  | record fields => .object (shapeFields fields)

def shapeFields : List (String × Target) → List ShapeField
  | [] => []
  | (name, t) :: fields => ⟨name, shape t, t.isOptional⟩ :: shapeFields fields

end

def readItems (read : Json → Option Json) : List Json → Option (List Json)
  | [] => some []
  | v :: vs => do
    let x ← read v
    let xs ← readItems read vs
    some (x :: xs)

mutual

/-- The value as the target holds it, if it can be read. -/
def read : Target → Json → Option Json
  | text, v => match v with
    | .string s => some (.string s)
    | _ => none
  | flag, v => match v with
    | .bool b => some (.bool b)
    | _ => none
  | double, v => match v with
    | .number n => match n.toDouble with
      | .finite x => some (.number (.double x))
      | _ => none
    | _ => none
  | integer min max, v => match v with
    | .number (.integer n h) => if min ≤ n ∧ n ≤ max then some (.number (.integer n h)) else none
    | _ => none
  | any, v => some v
  | list t, v => match v with
    | .array items => (readItems (read t) items).map .array
    | _ => none
  | optional t, v => match v with
    | .null => some .null
    | v => read t v
  | record fields, v => match v with
    | .object entries => (readNamed fields entries).map .object
    | .array items => (readPlaced fields items).map .object
    | _ => none

def readNamed : List (String × Target) → List (String × Json) → Option (List (String × Json))
  | [], _ => some []
  | (name, t) :: fields, entries => do
    let x ← match entries.lookup name with
      | some v => read t v
      | none => if t.isOptional then some .null else none
    let xs ← readNamed fields entries
    some ((name, x) :: xs)

/-- Reads each field from the item in its place, of which there have to be as many. -/
def readPlaced : List (String × Target) → List Json → Option (List (String × Json))
  | [], [] => some []
  | (name, t) :: fields, v :: vs => do
    let x ← read t v
    let xs ← readPlaced fields vs
    some ((name, x) :: xs)
  | _, _ => none

end

end Target

inductive ReadError
  | invalid (report : Report)
  /-- The normal form of a valid value is none of the target. -/
  | mismatch

namespace Validator

/-- Whether every valid value is one of the target, as far as their shapes tell. -/
def projectsTo (v : Validator) (t : Target) : Bool := t.shape.accepts v.shape

def read (v : Validator) (t : Target) (x : Json) : Except ReadError Json :=
  match v.validate x with
  | .invalid report => .error (.invalid report)
  | .valid normal => match t.read normal with
    | some y => .ok y
    | none => .error .mismatch

end Validator

def Report.failure (r : Report) : String := "validation failed:\n" ++ r.describe

end Assay
