import Assay.Constraint.Printer
import Assay.Shape.Basic
/-!
# The text of shapes

Shapes are written like types: alternatives between bars, fields in braces with a `?` after the name of an optional one,
and integers as numbers.
-/
namespace Assay.Shape

mutual

def render : Shape → String
  | unknown => "unknown"
  | string => "string"
  | number => "number"
  | integer => "number"
  | boolean => "boolean"
  | null => "null"
  | literal l => l.render
  | union ss => " | ".intercalate (renderAll ss)
  | array (union ss) => "(" ++ " | ".intercalate (renderAll ss) ++ ")[]"
  | array s => render s ++ "[]"
  | tuple ss => "[" ++ ", ".intercalate (renderAll ss) ++ "]"
  | object fs => if fs.isEmpty then "\x7b\x7d" else "\x7b " ++ "; ".intercalate (renderFields fs) ++ " \x7d"
  | named n => n

def renderAll : List Shape → List String
  | [] => []
  | s :: ss => render s :: renderAll ss

def renderFields : List ShapeField → List String
  | [] => []
  | ⟨name, s, optional⟩ :: fs => (name ++ (if optional then "?: " else ": ") ++ render s) :: renderFields fs

end

end Assay.Shape
