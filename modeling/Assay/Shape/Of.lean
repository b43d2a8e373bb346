import Assay.Shape.Accepts
import Assay.Validator
/-!
# The shape of a schema

Bounds and formats are dropped, an optional marker is looked through, and a reference is the shape of that name.
-/
namespace Assay

def Kind.shape : Kind → Shape
  | string => .string
  | number => .number
  | integer => .integer
  | boolean => .boolean

def Literal.shape : Literal → Shape
  | null => .null
  | l => .literal l

namespace Constraint

mutual

def shape : Constraint → Shape
  | kind k => k.shape
  | range k _ _ => k.shape
  | format _ => .string
  | literal l => l.shape
  | union cs => .oneOf (shapeAll cs)
  | array c => .array (shape c)
  | tuple cs => .tuple (shapeAll cs)
  | optional c => shape c
  | reference n => .named n

def shapeAll : List Constraint → List Shape
  | [] => []
  | c :: cs => shape c :: shapeAll cs

end

end Constraint

namespace Tree

mutual

def shape : Tree → Shape
  | leaf c => c.shape
  | object fields _ => .object (shapeFields fields)
  | array t => .array (shape t)
  | tuple ts => .tuple (shapeAll ts)

def shapeAll : List Tree → List Shape
  | [] => []
  | t :: ts => shape t :: shapeAll ts

def shapeFields : List Field → List ShapeField
  | [] => []
  | ⟨name, optional, t⟩ :: fields => ⟨name, shape t, optional⟩ :: shapeFields fields

end

end Tree

/-- The shape of the values that a validator allows. -/
def Validator.shape (v : Validator) : Shape := v.root.shape

end Assay
