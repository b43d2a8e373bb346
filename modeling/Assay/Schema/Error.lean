import Assay.Expression.Error
import Assay.Json.Printer
import Assay.Path
/-!
# What is wrong with a schema

The reasons why a description does not compile and why a scope takes no definition, each with the place in the
description where it has one.
-/
namespace Assay

inductive SchemaError
  /-- The constraint at the path is not one, or is not well formed. -/
  | constraint (path : Path) (cause : ConstraintError)
  | duplicateField (path : Path) (name : String)
  | misplacedOptional (path : Path)
  /-- An embedded validator follows references of another scope. -/
  | foreignScope (path : Path)
  /-- A JSON value that describes no schema. -/
  | unsupported (path : Path) (found : Json)
  | duplicateDefinition (name : String)
  | reservedName (name : String)
  | unknownDefinition (name : String)
  /-- Definitions that refer to each other without looking into the value: the names from one back to itself. -/
  | unguardedCycle (names : List String)

namespace SchemaError

def message : SchemaError → String
  | constraint path cause => "invalid constraint at '" ++ path.render ++ "': " ++ cause.message
  | duplicateField path name => "duplicate field '" ++ name ++ "' at '" ++ path.render ++ "'"
  | misplacedOptional path =>
    "optional marker not allowed at '" ++ path.render ++ "' (only object fields may be optional)"
  | foreignScope path =>
    "compiled sub-schema at '" ++ path.render ++ "' references definitions from another scope"
  | unsupported path found => "unsupported schema description at '" ++ path.render ++ "': " ++ found.render
  | duplicateDefinition name => "definition '" ++ name ++ "' already exists"
  | reservedName name => "'" ++ name ++ "' is reserved and cannot name a definition"
  | unknownDefinition name => "definition '" ++ name ++ "' not found"
  | unguardedCycle names => "definitions refer to themselves without nesting: " ++ " -> ".intercalate names

end SchemaError

end Assay
