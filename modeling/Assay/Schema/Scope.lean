import Assay.Schema.Lowering
import Assay.Schema.Cycle
/-!
# Scopes

A scope holds descriptions under names that their expressions may use as types.  Its definitions are compiled together,
each with every name in view, and each then has a validator of its own.
-/
namespace Assay

/-- Descriptions under distinct names, in the order of their definition. -/
structure Scope where
  definitions : List (String × Description) := []
  distinct : (definitions.map (·.1)).Nodup := by decide

namespace Scope

def names (s : Scope) : List String := s.definitions.map (·.1)

/-- **Names stay distinct** with a definition under a name that is not taken. -/
theorem distinct_append (s : Scope) {name : String} (h : ¬s.names.contains name = true) (d : Description) :
    ((s.definitions ++ [(name, d)]).map (·.1)).Nodup := by
  rw [List.map_append, List.nodup_append]
  refine ⟨s.distinct, List.nodup_cons.2 ⟨List.not_mem_nil, List.nodup_nil⟩, fun n hn m hm he => h ?_⟩
  have hname : n = name := he.trans (List.mem_singleton.1 hm)
  exact List.contains_iff_mem.2 (hname ▸ hn)

/-- The scope with one more definition, whose name is neither part of the notation nor taken. -/
def define (s : Scope) (name : String) (d : Description) : Except SchemaError Scope :=
  if keywords.contains name then .error (.reservedName name)
  else if h : s.names.contains name then .error (.duplicateDefinition name)
  else .ok ⟨s.definitions ++ [(name, d)], s.distinct_append h d⟩

end Scope

structure CompiledScope where
  definitions : Definitions
  maxDepth : Nat

namespace CompiledScope

def names (s : CompiledScope) : List String := s.definitions.map (·.1)

def validator? (s : CompiledScope) (name : String) : Option Validator :=
  (s.definitions.lookup name).map fun root => ⟨root, some s.definitions, s.maxDepth⟩

def validate (s : CompiledScope) (name : String) (x : Json) : Except SchemaError Outcome :=
  match s.validator? name with
  | some v => .ok (v.validate x)
  | none => .error (.unknownDefinition name)

end CompiledScope

/-- The trees of some definitions of a scope, each lowered at the path of its name. -/
def Scope.lowerAll (isDefined : String → Bool) (policy : Policy) : List (String × Description) → Lowering Definitions
  | [] => return []
  | (name, d) :: rest => do
    let t ← d.lower (readScoped isDefined) isDefined policy [.key name]
    let trees ← lowerAll isDefined policy rest
    return (name, t) :: trees

/-- Compiles every definition with the settings of the compiler, which keeps what was read, and refuses definitions that
follow each other in a circle. -/
def Compiler.compileScope (c : Compiler) (s : Scope) : Except SchemaError CompiledScope × Compiler :=
  let (result, cache) := (Scope.lowerAll s.names.contains c.options.policy s.definitions).run.run c.cache
  (do
    let defs ← result
    match defs.unguardedCycle? with
    | some names => throw (.unguardedCycle names)
    | none => return ⟨defs, c.options.maxDepth⟩, { c with cache })

/-- Compiles every definition on a compiler of its own. -/
def Scope.compile (s : Scope) (options : Options) : Except SchemaError CompiledScope :=
  (Compiler.compileScope { options } s).1

end Assay
