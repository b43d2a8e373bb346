import Assay.Tree.Basic
/-!
# Unguarded cycles

A definition whose heads lead back to it would be followed forever on one value.  The search goes depth first through
the heads, in their order, and returns the first chain of names that closes.
-/
namespace Assay

namespace Definitions

/-- The names that the definition of a name follows first; an undefined name follows none. -/
def headsOf (defs : Definitions) (name : String) : List String :=
  match defs.lookup name with
  | some t => t.heads
  | none => []

/-- One visit of the search: `stack` holds the open names, `finished` those from which no chain closes.  The visit
returns the finished names, or in place of them the chain that closes. -/
def visit (defs : Definitions) :
    (depth : Nat) → (stack finished : List String) → String → Except (List String) (List String)
  | depth, stack, finished, name =>
    if finished.contains name then .ok finished
    else if stack.contains name then .error (stack.dropWhile (· != name) ++ [name])
    else match depth with
      | 0 => .ok finished
      | depth + 1 => do
        let finished ← (defs.headsOf name).foldlM (visit defs depth (stack ++ [name])) finished
        return name :: finished

/-- The first chain of heads that closes, if there is one.  No stack holds more names than are defined, so the depth of
the search is enough. -/
def unguardedCycle? (defs : Definitions) : Option (List String) :=
  match (defs.map (·.1)).foldlM (defs.visit (defs.length + 1) []) [] with
  | .ok _ => none
  | .error names => some names

end Definitions

end Assay
