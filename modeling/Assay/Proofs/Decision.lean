import Assay.Validator
/-!
# The quick decision and the full diagnosis

A value has no violation exactly when it is allowed, for constraints, trees and definitions in turn
(`Tree.violations_eq_nil_iff`, `Definitions.violations_eq_nil_iff`), so a validator's two answers agree.  The recursion
is on the schema; where a reference re-enters the definitions, the induction is on the budget that is left.
-/
namespace Assay

/-- A way to decide references and a way to diagnose them agree on every name and value. -/
def Agree (allow : String → Json → Bool) (follow : String → Json → List Violation) : Prop :=
  ∀ name v, follow name v = [] ↔ allow name v = true

theorem itemViolations_eq_nil (check : Json → List Violation) : ∀ (i : Nat) (vs : List Json),
    itemViolations check i vs = [] ↔ ∀ v ∈ vs, check v = []
  | _, [] => by simp [itemViolations]
  | i, v :: vs => by
    rw [itemViolations, List.append_eq_nil_iff, itemViolations_eq_nil check (i + 1) vs]
    simp

namespace Constraint

theorem refusal_eq_nil (allow : String → Json → Bool) (c : Constraint) (v : Json) :
    c.refusal allow v = [] ↔ c.allows allow v = true := by
  unfold refusal
  split
  · rename_i h
    simp [h]
  · rename_i h
    simp [h]

theorem length_eq_of_allowsEach (allow : String → Json → Bool) : ∀ (cs : List Constraint) (vs : List Json),
    allowsEach allow cs vs = true → vs.length = cs.length
  | [], [], _ => rfl
  | [], _ :: _, h => by simp [allowsEach] at h
  | _ :: _, [], h => by simp [allowsEach] at h
  | c :: cs, v :: vs, h => by
    rw [allowsEach, Bool.and_eq_true] at h
    rw [List.length_cons, List.length_cons, length_eq_of_allowsEach allow cs vs h.2]

mutual

/-- **A constraint has no violation by a value exactly when it allows the value.** -/
theorem violations_eq_nil_iff {allow : String → Json → Bool} {follow : String → Json → List Violation}
    (ha : Agree allow follow) : ∀ (c : Constraint) (v : Json),
    c.violations allow follow v = [] ↔ c.allows allow v = true
  | kind k, v => by rw [violations]; exact refusal_eq_nil allow _ v
  | range k min max, v => by rw [violations]; exact refusal_eq_nil allow _ v
  | format f, v => by rw [violations]; exact refusal_eq_nil allow _ v
  | literal l, v => by rw [violations]; exact refusal_eq_nil allow _ v
  | union cs, v => by rw [violations]; exact refusal_eq_nil allow _ v
  | optional c, v => by rw [violations, allows]; exact violations_eq_nil_iff ha c v
  | reference name, v => by rw [violations, allows]; exact ha name v
  | array c, v => by
    cases v with
    | array items =>
      rw [violations, allows, itemViolations_eq_nil, List.all_eq_true]
      exact forall₂_congr fun x _ => violations_eq_nil_iff ha c x
    | _ => simp [violations, allows]
  | tuple cs, v => by
    cases v with
    | array items =>
      rw [violations, allows]
      split
      · rename_i hl
        exact violationsEach_eq_nil_iff ha 0 cs items hl
      · rename_i hl
        simp only [reduceCtorEq, false_iff]
        exact fun h => hl (length_eq_of_allowsEach allow cs items h)
    | _ => simp [violations, allows]

/-- At equal lengths, no place of a tuple has a violation exactly when every place is allowed. -/
theorem violationsEach_eq_nil_iff {allow : String → Json → Bool} {follow : String → Json → List Violation}
    (ha : Agree allow follow) : ∀ (i : Nat) (cs : List Constraint) (vs : List Json), vs.length = cs.length →
    (violationsEach allow follow i cs vs = [] ↔ allowsEach allow cs vs = true)
  | _, [], [], _ => by simp [violationsEach, allowsEach]
  | _, [], _ :: _, h => by cases h
  | _, _ :: _, [], h => by cases h
  | i, c :: cs, v :: vs, h => by
    rw [violationsEach, allowsEach, List.append_eq_nil_iff, List.map_eq_nil_iff, Bool.and_eq_true,
      violations_eq_nil_iff ha c v, violationsEach_eq_nil_iff ha (i + 1) cs vs (Nat.succ.inj h)]

end

end Constraint

theorem extraViolations_eq_nil (fields : List Field) (entries : List (String × Json)) :
    extraViolations fields entries = [] ↔ (entries.all fun e => declares fields e.1) = true := by
  rw [extraViolations, List.map_eq_nil_iff, List.filter_eq_nil_iff, List.all_eq_true]
  simp

namespace Tree

theorem length_eq_of_allowsEach (allow : String → Json → Bool) : ∀ (ts : List Tree) (vs : List Json),
    allowsEach allow ts vs = true → vs.length = ts.length
  | [], [], _ => rfl
  | [], _ :: _, h => by simp [allowsEach] at h
  | _ :: _, [], h => by simp [allowsEach] at h
  | t :: ts, v :: vs, h => by
    rw [allowsEach, Bool.and_eq_true] at h
    rw [List.length_cons, List.length_cons, length_eq_of_allowsEach allow ts vs h.2]

mutual

/-- **A tree has no violation by a value exactly when it allows the value.** -/
theorem violations_eq_nil_iff {allow : String → Json → Bool} {follow : String → Json → List Violation}
    (ha : Agree allow follow) : ∀ (t : Tree) (v : Json),
    t.violations allow follow v = [] ↔ t.allows allow v = true
  | leaf c, v => by rw [violations, allows]; exact c.violations_eq_nil_iff ha v
  | object fields policy, v => by
    cases v with
    | object entries =>
      rw [violations, allows, List.append_eq_nil_iff, Bool.and_eq_true]
      refine and_congr (violationsFields_eq_nil_iff ha fields entries) ?_
      cases policy with
      | reject => simpa using extraViolations_eq_nil fields entries
      | _ => simp
    | _ => simp [violations, allows]
  | array t, v => by
    cases v with
    | array items =>
      rw [violations, allows, itemViolations_eq_nil, List.all_eq_true]
      exact forall₂_congr fun x _ => violations_eq_nil_iff ha t x
    | _ => simp [violations, allows]
  | tuple ts, v => by
    cases v with
    | array items =>
      rw [violations, allows]
      split
      · rename_i hl
        exact violationsEach_eq_nil_iff ha 0 ts items hl
      · rename_i hl
        simp only [reduceCtorEq, false_iff]
        exact fun h => hl (length_eq_of_allowsEach allow ts items h)
    | _ => simp [violations, allows]

/-- No declared field has a violation exactly when each is allowed or absent and optional. -/
theorem violationsFields_eq_nil_iff {allow : String → Json → Bool} {follow : String → Json → List Violation}
    (ha : Agree allow follow) : ∀ (fields : List Field) (entries : List (String × Json)),
    violationsFields allow follow fields entries = [] ↔ allowsFields allow fields entries = true
  | [], _ => by simp [violationsFields, allowsFields]
  | ⟨name, optional, t⟩ :: fields, entries => by
    rw [violationsFields, allowsFields, List.append_eq_nil_iff, Bool.and_eq_true,
      violationsFields_eq_nil_iff ha fields entries]
    refine and_congr_left fun _ => ?_
    cases entries.lookup name with
    | some v => simpa only [List.map_eq_nil_iff] using violations_eq_nil_iff ha t v
    | none => cases optional <;> simp

/-- At equal lengths, no place of a tuple has a violation exactly when every place is allowed. -/
theorem violationsEach_eq_nil_iff {allow : String → Json → Bool} {follow : String → Json → List Violation}
    (ha : Agree allow follow) : ∀ (i : Nat) (ts : List Tree) (vs : List Json), vs.length = ts.length →
    (violationsEach allow follow i ts vs = [] ↔ allowsEach allow ts vs = true)
  | _, [], [], _ => by simp [violationsEach, allowsEach]
  | _, [], _ :: _, h => by cases h
  | _, _ :: _, [], h => by cases h
  | i, t :: ts, v :: vs, h => by
    rw [violationsEach, allowsEach, List.append_eq_nil_iff, List.map_eq_nil_iff, Bool.and_eq_true,
      violations_eq_nil_iff ha t v, violationsEach_eq_nil_iff ha (i + 1) ts vs (Nat.succ.inj h)]

end

end Tree

namespace Definitions

/-- **Following a reference within a budget finds no violation exactly when it allows the value.**  A name without a
definition and a reference past the budget are both refused and both diagnosed. -/
theorem violations_eq_nil_iff (defs : Definitions) (limit : Nat) : ∀ (budget : Nat),
    Agree (defs.allows budget) (defs.violations limit budget)
  | 0, name, v => by
    rw [violations, allows]
    cases defs.lookup name <;> simp
  | budget + 1, name, v => by
    rw [violations, allows]
    cases defs.lookup name with
    | some t => exact t.violations_eq_nil_iff (violations_eq_nil_iff defs limit budget) v
    | none => simp

end Definitions

namespace Validator

theorem violations_eq_nil_iff (v : Validator) (x : Json) : v.violations x = [] ↔ v.allows x = true :=
  v.root.violations_eq_nil_iff (v.scope.violations_eq_nil_iff v.maxDepth v.maxDepth) x

/-- What a validation answers, by the list of all violations. -/
theorem validate_eq_valid_iff (v : Validator) (x n : Json) :
    v.validate x = .valid n ↔ v.violations x = [] ∧ n = v.normalize x := by
  unfold validate
  cases h : v.violations x with
  | nil => simp [Report.ofList?, eq_comm]
  | cons violation rest => simp [Report.ofList?]

theorem violations_of_validate_invalid {v : Validator} {x : Json} {report : Report}
    (h : v.validate x = .invalid report) : v.violations x = report.toList := by
  unfold validate at h
  cases hv : v.violations x with
  | nil => rw [hv] at h; cases h
  | cons violation rest => rw [hv] at h; cases h; rfl

theorem isValid_validate (v : Validator) (x : Json) : (v.validate x).isValid = v.allows x := by
  unfold validate
  cases h : v.violations x with
  | nil => rw [(v.violations_eq_nil_iff x).1 h]; rfl
  | cons violation rest =>
    cases hx : v.allows x with
    | true => rw [(v.violations_eq_nil_iff x).2 hx] at h; cases h
    | false => rfl

theorem keepAllowed_eq_filter_validateAll (v : Validator) : ∀ (xs : List Json),
    v.keepAllowed xs = ((xs.zip (v.validateAll xs)).filter (·.2.isValid)).map Prod.fst
  | [] => rfl
  | x :: xs => by
    have ih := keepAllowed_eq_filter_validateAll v xs
    rw [keepAllowed, validateAll] at ih ⊢
    rw [List.map_cons, List.zip_cons_cons, List.filter_cons, List.filter_cons, isValid_validate]
    cases v.allows x with
    | true => simpa using ih
    | false => simpa using ih

/-- **The quick decision is the outcome of the full validation**, and the values kept of a list are those whose outcomes
are valid, in their order. -/
theorem allows_iff_validate_valid (v : Validator) :
    (∀ x, v.allows x = true ↔ ∃ n, v.validate x = .valid n) ∧
    ∀ xs, v.keepAllowed xs = ((xs.zip (v.validateAll xs)).filter (·.2.isValid)).map Prod.fst := by
  refine ⟨fun x => ⟨fun h => ?_, fun ⟨n, h⟩ => ?_⟩, v.keepAllowed_eq_filter_validateAll⟩
  · exact ⟨v.normalize x, (v.validate_eq_valid_iff x _).2 ⟨(v.violations_eq_nil_iff x).2 h, rfl⟩⟩
  · exact (v.violations_eq_nil_iff x).1 ((v.validate_eq_valid_iff x n).1 h).1

end Validator

end Assay
