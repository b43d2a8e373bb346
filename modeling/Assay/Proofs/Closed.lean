import Assay.Proofs.Acyclic
import Assay.Proofs.Following
/-!
# Closed definitions

A validator is closed when every name that its root or a definition refers to has a definition.  To say that no run
then comes to a name without one, the evaluators are run so that they give up there (`Validator.allows?`,
`Validator.validate?`): in a closed validator they never do, and answer as they always do
(`Validator.Closed.allows?_eq`, `Validator.Closed.validate?_eq`).
-/
namespace Assay

namespace Definitions

/-- The decision of a definition, or nothing where it comes to a name without a definition. -/
def allows? (defs : Definitions) : (budget : Nat) → String → Json → Option Bool
  | 0, name, _ => match defs.lookup name with
    | some _ => some false
    | none => none
  | budget + 1, name, v => match defs.lookup name with
    | some t => t.allowsM (allows? defs budget) v
    | none => none

/-- The violations of a definition, or nothing where the check comes to a name without a definition. -/
def violations? (defs : Definitions) (limit : Nat) : (budget : Nat) → String → Json → Option (List Violation)
  | 0, name, _ => match defs.lookup name with
    | some _ => some [tooDeep limit name]
    | none => none
  | budget + 1, name, v => match defs.lookup name with
    | some t => t.violationsM (defs.allows? budget) (violations? defs limit budget) v
    | none => none

/-- The normal form by a definition, or nothing where it takes a name without a definition. -/
def normalize? (defs : Definitions) : (budget : Nat) → String → Json → Option Json
  | 0, name, v => match defs.lookup name with
    | some _ => some v
    | none => none
  | budget + 1, name, v => match defs.lookup name with
    | some t => t.normalizeM (normalize? defs budget) v
    | none => none

/-- Every name that a definition refers to has a definition. -/
def Closed (defs : Definitions) : Prop :=
  ∀ name t, defs.lookup name = some t → ∀ n ∈ t.references, n ∈ defs.map (·.1)

namespace Closed

variable {defs : Definitions}

/-- By induction on the budget: the definition refers to names that have answers within one reference less. -/
theorem allows?_eq (hc : defs.Closed) : ∀ (budget : Nat),
    Answers (defs.map (·.1)) (defs.allows? budget) (defs.allows budget)
  | 0, name, hn, v => by
    obtain ⟨t, ht⟩ := mem_names_iff.1 hn
    rw [allows?, allows, ht]
    rfl
  | budget + 1, name, hn, v => by
    obtain ⟨t, ht⟩ := mem_names_iff.1 hn
    have hasked : Answers t.references (defs.allows? budget) (defs.allows budget) :=
      fun n hr => hc.allows?_eq budget n (hc name t ht n hr)
    rw [allows?, allows, ht]
    exact t.allowsM_eq_pure hasked v

theorem violations?_eq (hc : defs.Closed) (limit : Nat) : ∀ (budget : Nat),
    Answers (defs.map (·.1)) (defs.violations? limit budget) (defs.violations limit budget)
  | 0, name, hn, v => by
    obtain ⟨t, ht⟩ := mem_names_iff.1 hn
    rw [violations?, violations, ht]
    rfl
  | budget + 1, name, hn, v => by
    obtain ⟨t, ht⟩ := mem_names_iff.1 hn
    have hasked : Answers t.references (defs.allows? budget) (defs.allows budget) :=
      fun n hr => hc.allows?_eq budget n (hc name t ht n hr)
    have hfound : Answers t.references (defs.violations? limit budget) (defs.violations limit budget) :=
      fun n hr => hc.violations?_eq limit budget n (hc name t ht n hr)
    rw [violations?, violations, ht]
    exact t.violationsM_eq_pure hasked hfound v

theorem normalize?_eq (hc : defs.Closed) : ∀ (budget : Nat),
    Answers (defs.map (·.1)) (defs.normalize? budget) (defs.normalize budget)
  | 0, name, hn, v => by
    obtain ⟨t, ht⟩ := mem_names_iff.1 hn
    rw [normalize?, normalize, ht]
    rfl
  | budget + 1, name, hn, v => by
    obtain ⟨t, ht⟩ := mem_names_iff.1 hn
    have hgiven : Answers t.references (defs.normalize? budget) (defs.normalize budget) :=
      fun n hr => hc.normalize?_eq budget n (hc name t ht n hr)
    rw [normalize?, normalize, ht]
    exact t.normalizeM_eq_pure hgiven v

end Closed

end Definitions

namespace Validator

/-- Whether the validator allows a value, or nothing where it comes to a name without a definition. -/
def allows? (v : Validator) (x : Json) : Option Bool := v.root.allowsM (v.scope.allows? v.maxDepth) x

/-- The outcome of a value, or nothing where the validator comes to a name without a definition. -/
def validate? (v : Validator) (x : Json) : Option Outcome := do
  let found ← v.root.violationsM (v.scope.allows? v.maxDepth) (v.scope.violations? v.maxDepth v.maxDepth) x
  match Report.ofList? found with
  | none => return .valid (← v.root.normalizeM (v.scope.normalize? v.maxDepth) x)
  | some report => return .invalid report

/-- Every name that the root or a definition refers to has a definition. -/
structure Closed (v : Validator) : Prop where
  root : ∀ name ∈ v.root.references, name ∈ v.scope.map (·.1)
  scope : v.scope.Closed

namespace Closed

variable {v : Validator}

/-- **A closed validator decides every value without coming to a name that has no definition.** -/
theorem allows?_eq (hc : v.Closed) (x : Json) : v.allows? x = some (v.allows x) := by
  have hasked : Answers v.root.references (v.scope.allows? v.maxDepth) (v.scope.allows v.maxDepth) :=
    fun name hn => hc.scope.allows?_eq v.maxDepth name (hc.root name hn)
  exact v.root.allowsM_eq_pure hasked x

/-- **A closed validator validates every value without coming to a name that has no definition.** -/
theorem validate?_eq (hc : v.Closed) (x : Json) : v.validate? x = some (v.validate x) := by
  have hasked : Answers v.root.references (v.scope.allows? v.maxDepth) (v.scope.allows v.maxDepth) :=
    fun name hn => hc.scope.allows?_eq v.maxDepth name (hc.root name hn)
  have hfound : Answers v.root.references (v.scope.violations? v.maxDepth v.maxDepth)
      (v.scope.violations v.maxDepth v.maxDepth) :=
    fun name hn => hc.scope.violations?_eq v.maxDepth v.maxDepth name (hc.root name hn)
  have hgiven : Answers v.root.references (v.scope.normalize? v.maxDepth) (v.scope.normalize v.maxDepth) :=
    fun name hn => hc.scope.normalize?_eq v.maxDepth name (hc.root name hn)
  have hv : v.root.violationsM (v.scope.allows? v.maxDepth) (v.scope.violations? v.maxDepth v.maxDepth) x =
      some (v.violations x) := v.root.violationsM_eq_pure hasked hfound x
  have hn : v.root.normalizeM (v.scope.normalize? v.maxDepth) x = some (v.normalize x) :=
    v.root.normalizeM_eq_pure hgiven x
  rw [validate?, hv, hn, Option.bind_eq_bind, Option.bind_some, validate]
  cases Report.ofList? (v.violations x) <;> rfl

end Closed

end Validator

end Assay
