import Assay.Proofs.Decision
import Assay.Proofs.Diagnosis
/-!
# Violations apart from a change

When the part of a value at a path is replaced (`Json.replace`), the violations change only at paths that lead to this
part or start in it: all the others are the same and in the same order (`Validator.violations_apart_replace`).  A change
under one step of a value changes the part under this step alone (`Tree.parts_alter`), and a mismatch is found at the
value itself, on the way to the change; so each rule of diagnosis keeps the property, for a change at any path.
-/
namespace Assay

namespace Json

/-- The value with `f` applied to what one step leads to. -/
def alter (x : Json) (s : Segment) (f : Json → Json) : Json :=
  match x, s with
  | object entries, .key k => object (entries.map fun (k', v) => (k', if k' = k then f v else v))
  | array items, .index i => array (items.modify i f)
  | x, _ => x

/-- The value with `y` in the place of what stands at a path. -/
def replace (x : Json) (p : Path) (y : Json) : Json :=
  match p with
  | [] => y
  | s :: p => x.alter s fun z => z.replace p y

theorem lookup_alter (k : String) (f : Json → Json) (k' : String) : ∀ (entries : List (String × Json)),
    (entries.map fun (k', v) => (k', if k' = k then f v else v)).lookup k' =
      (entries.lookup k').map fun v => if k' = k then f v else v
  | [] => rfl
  | (k'', v) :: entries => by
    rw [List.map_cons, List.lookup_cons, List.lookup_cons]
    by_cases h : k' = k''
    · rw [h, beq_self_eq_true]
      rfl
    · rw [beq_false_of_ne h, lookup_alter k f k' entries]

theorem step?_alter_self (x : Json) (s : Segment) (f : Json → Json) : (x.alter s f).step? s = (x.step? s).map f := by
  cases x <;> cases s <;> simp [alter, step?, lookup_alter]

theorem step?_alter_of_ne {s s' : Segment} (h : s' ≠ s) (x : Json) (f : Json → Json) :
    (x.alter s f).step? s' = x.step? s' := by
  cases x with
  | object entries =>
    cases s with
    | key k =>
      cases s' with
      | key k' =>
        have hk : k' ≠ k := fun he => h (congrArg Segment.key he)
        simp [alter, step?, lookup_alter, hk]
      | index i => rfl
    | index i => rfl
  | array items =>
    cases s with
    | key k => rfl
    | index i =>
      cases s' with
      | key k => rfl
      | index j =>
        have hi : i ≠ j := fun he => h (congrArg Segment.index he.symm)
        simp [alter, step?, hi]
  | _ => rfl

/-- What stands at a path can be replaced. -/
theorem at?_replace {y : Json} : ∀ {p : Path} {x : Json}, (x.at? p).isSome → (x.replace p y).at? p = some y
  | [], _, _ => rfl
  | s :: p, x, h => by
    rw [at?_cons] at h
    rw [replace, at?_cons, step?_alter_self]
    cases hs : x.step? s with
    | none => rw [hs] at h; cases h
    | some z =>
      rw [hs] at h
      exact at?_replace (p := p) h

end Json

namespace Path

/-- One path leads to the other or further. -/
def Comparable (p q : Path) : Prop := p <+: q ∨ q <+: p

instance (p q : Path) : Decidable (p.Comparable q) := inferInstanceAs (Decidable (_ ∨ _))

@[simp] theorem comparable_nil_left (p : Path) : Comparable [] p := Or.inl List.nil_prefix

@[simp] theorem comparable_nil_right (p : Path) : Comparable p [] := Or.inr List.nil_prefix

@[simp] theorem comparable_cons {s s' : Segment} {p q : Path} :
    Comparable (s :: p) (s' :: q) ↔ s = s' ∧ p.Comparable q := by
  unfold Comparable
  rw [List.cons_prefix_cons, List.cons_prefix_cons, eq_comm (a := s'), ← and_or_left]

end Path

namespace Json

/-- Nothing else moves. -/
theorem at?_replace_of_not_comparable {y : Json} : ∀ {p q : Path} {x : Json}, ¬ q.Comparable p →
    (x.replace p y).at? q = x.at? q
  | [], q, _, h => absurd q.comparable_nil_right h
  | p, [], _, h => absurd p.comparable_nil_left h
  | s :: p, s' :: q, x, h => by
    rw [replace, at?_cons, at?_cons]
    by_cases hs : s' = s
    · subst hs
      rw [step?_alter_self]
      cases x.step? s' with
      | none => rfl
      | some z => exact at?_replace_of_not_comparable fun hc => h (Path.comparable_cons.2 ⟨rfl, hc⟩)
    · rw [step?_alter_of_ne hs]

end Json

/-- The violations that lie neither on the way to a path nor below it. -/
def apart (p : Path) (vs : List Violation) : List Violation := vs.filter fun e => ¬ e.path.Comparable p

section Apart

variable {p : Path} {vs ws : List Violation}

@[simp] theorem apart_nil_path : apart [] vs = [] := by simp [apart]

theorem apart_append : apart p (vs ++ ws) = apart p vs ++ apart p ws := List.filter_append vs ws

theorem apart_flatMap {α : Type} (l : List α) (f : α → List Violation) :
    apart p (l.flatMap f) = l.flatMap fun a => apart p (f a) := List.filter_flatMap

theorem apart_eq_nil (h : ∀ e ∈ vs, e.path = []) : apart p vs = [] :=
  List.filter_eq_nil_iff.2 fun e he => by simp [h e he]

theorem apart_singleton (p : Path) {e : Violation} (h : e.path = []) : apart p [e] = [] :=
  apart_eq_nil fun e' he => by rw [List.mem_singleton.1 he, h]

theorem apart_under_self (s : Segment) : apart (s :: p) (vs.map (·.under s)) = (apart p vs).map (·.under s) := by
  unfold apart
  rw [List.filter_map]
  congr 2
  funext e
  simp [Violation.under]

end Apart

namespace Tree

/-- What a change of the value there makes of a part. -/
def Part.alter (f : Json → Json) : Part → Part
  | checked t v => checked t (f v)
  | missing t => missing t
  | extra v => extra (f v)

/-- The part under one step changed, and no other part. -/
def alterPart (s : Segment) (f : Json → Json) (e : Segment × Part) : Segment × Part :=
  (e.1, if e.1 = s then e.2.alter f else e.2)

theorem itemParts_modify (f : Json → Json) (i : Nat) (ts : List Tree) (items : List Json) :
    itemParts ts (items.modify i f) 0 = (itemParts ts items 0).map (alterPart (.index i) f) := by
  refine List.ext_getElem? fun j => ?_
  rw [List.getElem?_map, getElem?_itemParts, getElem?_itemParts, List.getElem?_modify]
  cases ts[j]? with
  | none => rfl
  | some t =>
    cases items[j]? with
    | none => rfl
    | some v => by_cases h : i = j <;> simp [alterPart, Part.alter, h, eq_comm]

theorem part?_alter (k : String) (f : Json → Json) (entries : List (String × Json)) (field : Field) :
    part? (entries.map fun (k', v) => (k', if k' = k then f v else v)) field =
      (part? entries field).map (alterPart (.key k) f) := by
  unfold part?
  rw [Json.lookup_alter]
  cases entries.lookup field.name with
  | some v => by_cases h : field.name = k <;> simp [alterPart, Part.alter, h]
  | none => cases field.optional <;> simp [alterPart, Part.alter]

theorem extraParts_alter (k : String) (f : Json → Json) (fields : List Field) (entries : List (String × Json)) :
    extraParts fields (entries.map fun (k', v) => (k', if k' = k then f v else v)) =
      (extraParts fields entries).map (alterPart (.key k) f) := by
  unfold extraParts
  rw [List.filter_map, List.map_map, List.map_map]
  refine List.map_congr_left fun e _ => ?_
  by_cases h : e.1 = k <;> simp [alterPart, Part.alter, h]

/-- **A change under one step of a value changes the part under this step alone.** -/
theorem parts_alter (t : Tree) (x : Json) (s : Segment) (f : Json → Json) :
    t.parts (x.alter s f) = (t.parts x).map (alterPart s f) := by
  have hself : (∀ e ∈ t.parts x, e.1 ≠ s) → t.parts x = (t.parts x).map (alterPart s f) := fun hne =>
    ((List.map_congr_left fun e he => by simp [alterPart, hne e he]).trans (List.map_id _)).symm
  cases x with
  | array items =>
    cases s with
    | index i =>
      rw [Json.alter, parts, parts, List.length_modify]
      cases t.places? items.length with
      | none => rfl
      | some ts => exact itemParts_modify f i ts items
    | key k =>
      refine hself ?_
      rintro ⟨_, _⟩ he hs
      cases hasPart_of_mem he
      cases hs
  | object entries =>
    cases s with
    | key k =>
      cases t with
      | object fields policy =>
        rw [Json.alter, parts, parts, List.map_append, List.map_filterMap, funext (part?_alter k f entries)]
        by_cases hp : policy = .reject <;> simp [hp, extraParts_alter]
      | _ => rfl
    | index i =>
      refine hself ?_
      rintro ⟨_, _⟩ he hs
      cases hasPart_of_mem he <;> cases hs
  | _ => cases s <;> rfl

namespace Diagnosis

variable {defs : Definitions} {limit : Nat} {t : Tree} {check : Json → List Violation}

/-- **By the rules, a change at a path alters no violation apart from it.** -/
theorem apart_replace (h : Diagnosis defs limit t check) : ∀ (p : Path) (x y : Json),
    apart p (check (x.replace p y)) = apart p (check x) := by
  induction h with
  | @parts t allow check _ _ ih =>
    intro p x y
    cases p with
    | nil => rw [apart_nil_path, apart_nil_path]
    | cons s p =>
      -- The mismatches of both values are at the value itself, on the way to the change.
      have hm : ∀ z, apart (s :: p) (t.mismatch allow z) = [] := fun z =>
        apart_eq_nil fun e he => (mismatch_of_mem he).path
      rw [apart_append, apart_append, hm, hm, apart_flatMap, apart_flatMap, Json.replace, parts_alter,
        List.flatMap_map]
      refine congrArg _ (List.flatMap_congr fun e he => ?_)
      obtain ⟨s', part⟩ := e
      by_cases hs : s' = s
      · subst hs
        rw [alterPart, if_pos rfl, Part.found, Part.found, apart_under_self, apart_under_self]
        cases part with
        | checked u v => exact congrArg _ (ih _ _ u v (hasPart_of_mem he) p v y)
        | missing u => rfl
        | extra v => exact congrArg _ ((apart_singleton _ rfl).trans (apart_singleton _ rfl).symm)
      · rw [alterPart, if_neg hs]
  | optional _ ih => exact ih
  | definition _ _ ih => exact ih
  | unknown _ => exact fun p x y => (apart_singleton p rfl).trans (apart_singleton p rfl).symm
  | tooDeep _ => exact fun _ _ _ => rfl

end Diagnosis

end Tree

namespace Outcome

/-- The violations that an outcome reports: a valid value has none. -/
def violations : Outcome → List Violation
  | valid _ => []
  | invalid report => report.toList

end Outcome

namespace Validator

theorem violations_validate (v : Validator) (x : Json) : (v.validate x).violations = v.violations x := by
  cases h : v.validate x with
  | valid n => exact ((v.validate_eq_valid_iff x n).1 h).1.symm
  | invalid report => exact (violations_of_validate_invalid h).symm

/-- **Failures are local**: replacing what stands at a path keeps every violation apart from it, in its place among
them. -/
theorem violations_apart_replace (v : Validator) (x y : Json) (p : Path) :
    apart p (v.validate (x.replace p y)).violations = apart p (v.validate x).violations := by
  rw [violations_validate, violations_validate]
  exact v.diagnosis.apart_replace p x y

end Validator

end Assay
