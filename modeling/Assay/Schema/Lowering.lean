import Assay.Expression.Reader
import Assay.Schema.Basic
/-!
# Compiling descriptions

A description is lowered depth first to a validator tree, and the first part that is malformed is reported with its
path.  A compiler keeps the expressions it has read, so that each is read once; outside a scope what an expression
means does not depend on anything else, so this changes no answer.
-/
namespace Assay

/-- The settings of a compiler. -/
structure Options where
  /-- The policy of objects without one of their own. -/
  policy : Policy := .allow
  /-- How many references may be nested. -/
  maxDepth : Nat := 100
  deriving DecidableEq

/-- The expressions read so far, with what they mean. -/
abbrev Cache := List (String × Constraint)

/-- A step of compilation: it may add to the cache, also when it fails. -/
abbrev Lowering := ExceptT SchemaError (StateM Cache)

/-- A way to read the expression at a path. -/
abbrev Reading := Path → String → Lowering Constraint

/-- The meaning of an expression outside any scope, from the cache if it is there. -/
def readCached : Reading := fun path text => do
  match (← get).lookup text with
  | some c => return c
  | none =>
    match Constraint.parse (fun _ => false) text with
    | .ok c =>
      modify ((text, c) :: ·)
      return c
    | .error e => throw (.constraint path e)

/-- The meaning of an expression in which the names that `isDefined` accepts are references. -/
def readScoped (isDefined : String → Bool) : Reading := fun path text =>
  match Constraint.parse isDefined text with
  | .ok c => return c
  | .error e => throw (.constraint path e)

/-- Refuses a constraint that is not well formed or refers to a name without a definition. -/
def checkConstraint (isDefined : String → Bool) (path : Path) (c : Constraint) : Lowering Unit := do
  if let .error e := c.check then throw (.constraint path e)
  if let some name := c.references.find? (!isDefined ·) then throw (.constraint path (.unknownType name 0))

/-- Refuses an optional marker where no field is declared. -/
def checkElement (path : Path) (t : Tree) : Lowering Tree :=
  if t.isOptional then throw (.misplacedOptional path) else return t

namespace Description

mutual

def lower (read : Reading) (isDefined : String → Bool) (policy : Policy) : Path → Description → Lowering Tree
  | path, expression text => do return .leaf (← read path text)
  | path, constraint c => do
    checkConstraint isDefined path c
    return .leaf c
  | path, object fields own => do
    return .object (← lowerFields read isDefined policy path [] fields) (own.getD policy)
  | path, array item => do return .array (← checkElement path (← lower read isDefined policy path item))
  | path, tuple items => do return .tuple (← lowerItems read isDefined policy path 0 items)
  | path, compiled v => if v.definitions.isSome then throw (.foreignScope path) else return v.root

/-- The fields of the object at a path, after those with the names `declared`. -/
def lowerFields (read : Reading) (isDefined : String → Bool) (policy : Policy) (path : Path)
    (declared : List String) : List FieldDescription → Lowering (List Field)
  | [] => return []
  | ⟨name, d, optional⟩ :: rest => do
    let (t, marked) := (← lower read isDefined policy (path.push (.key name)) d).splitOptional
    if declared.contains name then throw (.duplicateField path name)
    let fields ← lowerFields read isDefined policy path (declared ++ [name]) rest
    return ⟨name, optional || marked, t⟩ :: fields

def lowerItems (read : Reading) (isDefined : String → Bool) (policy : Policy) (path : Path) :
    Nat → List Description → Lowering (List Tree)
  | _, [] => return []
  | i, d :: rest => do
    let here := path.push (.index i)
    let t ← checkElement here (← lower read isDefined policy here d)
    let trees ← lowerItems read isDefined policy path (i + 1) rest
    return t :: trees

end

end Description

/-- Settings and what was read so far. -/
structure Compiler where
  options : Options := {}
  cache : Cache := []

namespace Compiler

def cachedExpressions (c : Compiler) : Nat := c.cache.length

/-- Compiles a description that belongs to no scope, and keeps what was read, also when it fails. -/
def compile (c : Compiler) (d : Description) : Except SchemaError Validator × Compiler :=
  let (result, cache) := (d.lower readCached (fun _ => false) c.options.policy []).run.run c.cache
  (result.map fun root => ⟨root, none, c.options.maxDepth⟩, { c with cache })

end Compiler

def compile (d : Description) : Except SchemaError Validator := (Compiler.compile {} d).1

end Assay
