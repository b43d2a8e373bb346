import Assay.Constraint.Basic
/-!
# Shapes

A shape is the static type of the values of a schema: kinds, literals and structure, without bounds and formats.
`accepts` decides from two shapes alone that every value of the second is one of the first; as for constraints, `==` is
numeric on the doubles inside.
-/
namespace Assay

mutual

inductive Shape
  | unknown
  | string
  | number
  | integer
  | boolean
  | null
  | literal (l : Literal)
  | union (alternatives : List Shape)
  | array (item : Shape)
  | tuple (items : List Shape)
  | object (fields : List ShapeField)
  | named (name : String)

structure ShapeField where
  name : String
  shape : Shape
  optional : Bool

end

namespace Shape

mutual

protected def beq : Shape → Shape → Bool
  | unknown, unknown => true
  | string, string => true
  | number, number => true
  | integer, integer => true
  | boolean, boolean => true
  | null, null => true
  | literal l, literal l' => l == l'
  | union ss, union ss' => beqAll ss ss'
  | array s, array s' => Shape.beq s s'
  | tuple ss, tuple ss' => beqAll ss ss'
  | object fs, object fs' => beqFields fs fs'
  | named n, named n' => n == n'
  | _, _ => false

def beqAll : List Shape → List Shape → Bool
  | [], [] => true
  | s :: ss, s' :: ss' => Shape.beq s s' && beqAll ss ss'
  | _, _ => false

def beqFields : List ShapeField → List ShapeField → Bool
  | [], [] => true
  | ⟨n, s, o⟩ :: fs, ⟨n', s', o'⟩ :: fs' => n == n' && Shape.beq s s' && o == o' && beqFields fs fs'
  | _, _ => false

end

instance : BEq Shape := ⟨Shape.beq⟩

/-- The alternatives of a union, and of anything else itself alone. -/
def branches : Shape → List Shape
  | union ss => ss
  | s => [s]

/-- The union of some shapes: nested unions are opened by one level, an alternative stands where it comes first, and a
single alternative stands for itself. -/
def oneOf (ss : List Shape) : Shape :=
  match (ss.flatMap branches).eraseDups with
  | [s] => s
  | distinct => union distinct

end Shape

end Assay
