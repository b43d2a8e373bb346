import Assay.Constraint.Admits
import Assay.Tree.Basic
/-!
# The quick decision

Whether a tree allows a value, stopping at the first reason why not.  A reference is followed within a budget: with
nothing left of it, no reference is followed and none allows anything.
-/
namespace Assay

namespace Tree

mutual

def allows (follow : String → Json → Bool) : Tree → Json → Bool
  | leaf c, v => c.allows follow v
  | object fields policy, v => match v with
    | .object entries =>
      allowsFields follow fields entries && (policy != .reject || entries.all fun e => declares fields e.1)
    | _ => false
  | array t, v => match v with
    | .array items => items.all (allows follow t)
    | _ => false
  | tuple ts, v => match v with
    | .array items => allowsEach follow ts items
    | _ => false

/-- Whether every field is present with an allowed value, or absent and optional. -/
def allowsFields (follow : String → Json → Bool) : List Field → List (String × Json) → Bool
  | [], _ => true
  | ⟨name, optional, t⟩ :: fields, entries =>
    (match entries.lookup name with
      | some v => allows follow t v
      | none => optional) && allowsFields follow fields entries

/-- Whether there are as many values as trees, each allowed by the one in its place. -/
def allowsEach (follow : String → Json → Bool) : List Tree → List Json → Bool
  | [], [] => true
  | t :: ts, v :: vs => allows follow t v && allowsEach follow ts vs
  | _, _ => false

end

end Tree

namespace Definitions

/-- Whether the definition of a name allows a value, following at most `budget` nested references. -/
def allows (defs : Definitions) : (budget : Nat) → String → Json → Bool
  | 0, _, _ => false
  | budget + 1, name, v => match defs.lookup name with
    | some t => t.allows (allows defs budget) v
    | none => false

end Definitions

end Assay
