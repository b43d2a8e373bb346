import Assay.Schema.Error
import Assay.Validator
/-!
# Schema descriptions

A description is what a caller writes: expressions and constraints at the leaves, objects, arrays and tuples inside, and
validators that were compiled before.  It can also be read from key and value pairs and from JSON, where a key that ends
in `?` declares an optional field.
-/
namespace Assay

mutual

inductive Description
  | expression (text : String)
  | constraint (c : Constraint)
  /-- An object, perhaps with a policy of its own for undeclared keys. -/
  | object (fields : List FieldDescription) (policy : Option Policy)
  | array (item : Description)
  | tuple (items : List Description)
  | compiled (v : Validator)

structure FieldDescription where
  name : String
  description : Description
  optional : Bool

end

/-- The name that a key declares and whether its field is optional: one `?` at its end is a marker. -/
def splitMarker (key : String) : String × Bool :=
  match key.toList.reverse with
  | '?' :: name => (String.ofList name.reverse, true)
  | _ => (key, false)

namespace Description

def ofPairs (pairs : List (String × Description)) : Description :=
  .object (pairs.map fun (key, d) => let (name, optional) := splitMarker key; ⟨name, d, optional⟩) none

mutual

/-- The description that a JSON value at `path` spells: an expression, an object or a tuple. -/
def ofJsonAt (path : Path) : Json → Except SchemaError Description
  | .string text => .ok (.expression text)
  | .object entries => do return .object (← fieldsOfJson path entries) none
  | .array items => do return .tuple (← itemsOfJson path 0 items)
  | v => .error (.unsupported path v)

def fieldsOfJson (path : Path) : List (String × Json) → Except SchemaError (List FieldDescription)
  | [] => .ok []
  | (key, v) :: entries => do
    let (name, optional) := splitMarker key
    let d ← ofJsonAt (path.push (.key name)) v
    let rest ← fieldsOfJson path entries
    return ⟨name, d, optional⟩ :: rest

def itemsOfJson (path : Path) : Nat → List Json → Except SchemaError (List Description)
  | _, [] => .ok []
  | i, v :: items => do
    let d ← ofJsonAt (path.push (.index i)) v
    let rest ← itemsOfJson path (i + 1) items
    return d :: rest

end

def ofJson (v : Json) : Except SchemaError Description := ofJsonAt [] v

end Description

end Assay
