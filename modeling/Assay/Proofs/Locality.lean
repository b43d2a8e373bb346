import Assay.Validator
import Mathlib.Data.List.Basic
/-!
# What a schema reads of the definitions

A constraint or a tree asks the definitions about a value itself only under its heads, and under any name only about
values inside it, which are less high.  So two ways to follow references that agree there (`OnFollowed`) give the same
violations and the same normal form.  The recursion is on the schema, as in the three evaluators.
-/
namespace Assay

namespace Json

mutual

/-- The nesting height of a value: one for a scalar, and for an array or an object one more than its highest part. -/
def height : Json → Nat
  | .array items => heightAll items + 1
  | .object entries => heightEntries entries + 1
  | _ => 1

def heightAll : List Json → Nat
  | [] => 0
  | v :: vs => max (height v) (heightAll vs)

def heightEntries : List (String × Json) → Nat
  | [] => 0
  | (_, v) :: entries => max (height v) (heightEntries entries)

end

theorem height_pos (v : Json) : 0 < v.height := by
  cases v <;> simp [height]

theorem height_le_heightAll {v : Json} : ∀ {items : List Json}, v ∈ items → v.height ≤ heightAll items
  | w :: items, h => by
    rw [heightAll]
    rcases List.mem_cons.1 h with rfl | h
    · exact Nat.le_max_left _ _
    · exact Nat.le_trans (height_le_heightAll h) (Nat.le_max_right _ _)

theorem height_le_heightEntries {k : String} {v : Json} : ∀ {entries : List (String × Json)}, (k, v) ∈ entries →
    v.height ≤ heightEntries entries
  | (k', w) :: entries, h => by
    rw [heightEntries]
    rcases List.mem_cons.1 h with h | h
    · cases h; exact Nat.le_max_left _ _
    · exact Nat.le_trans (height_le_heightEntries h) (Nat.le_max_right _ _)

theorem height_lt_array {v : Json} {items : List Json} (h : v ∈ items) : v.height < (Json.array items).height := by
  rw [height]
  exact Nat.lt_succ_of_le (height_le_heightAll h)

theorem height_lt_object {k : String} {v : Json} {entries : List (String × Json)} (h : (k, v) ∈ entries) :
    v.height < (Json.object entries).height := by
  rw [height]
  exact Nat.lt_succ_of_le (height_le_heightEntries h)

end Json

theorem mem_of_lookup {α : Type} {k : String} {a : α} {entries : List (String × α)} (h : entries.lookup k = some a) :
    (k, a) ∈ entries := by
  obtain ⟨before, after, rfl, -⟩ := List.lookup_eq_some_iff.1 h
  exact List.mem_append_right _ List.mem_cons_self

/-- **`P` holds wherever a schema with the heads `names` may follow a reference from `v`**: at `v` itself for its heads,
and below `v` for every name. -/
structure OnFollowed (names : List String) (v : Json) (P : String → Json → Prop) : Prop where
  here : ∀ name ∈ names, P name v
  below : ∀ name w, w.height < v.height → P name w

/-- `P` holds wherever a reference may be followed from one of some values, under any heads. -/
def OnItems (items : List Json) (P : String → Json → Prop) : Prop := ∀ w ∈ items, ∀ names, OnFollowed names w P

/-- `P` holds wherever a reference may be followed from the value of one of some entries, under any heads. -/
def OnEntries (entries : List (String × Json)) (P : String → Json → Prop) : Prop :=
  ∀ k w, (k, w) ∈ entries → ∀ names, OnFollowed names w P

namespace OnFollowed

variable {names : List String} {v : Json} {P Q : String → Json → Prop}

theorem mono (h : OnFollowed names v P) {heads : List String} (hs : ∀ name ∈ heads, name ∈ names) :
    OnFollowed heads v P :=
  ⟨fun name hn => h.here name (hs name hn), h.below⟩

theorem imp (h : OnFollowed names v P) (hPQ : ∀ name w, P name w → Q name w) : OnFollowed names v Q :=
  ⟨fun name hn => hPQ name v (h.here name hn), fun name w hw => hPQ name w (h.below name w hw)⟩

/-- A value inside `v` is below `v`, whatever the heads there are. -/
theorem inside (h : OnFollowed names v P) {w : Json} (hw : w.height < v.height) (heads : List String) :
    OnFollowed heads w P :=
  ⟨fun name _ => h.below name w hw, fun name u hu => h.below name u (Nat.lt_trans hu hw)⟩

theorem items {items : List Json} (h : OnFollowed names (.array items) P) : OnItems items P :=
  fun _ hw => h.inside (Json.height_lt_array hw)

theorem entries {entries : List (String × Json)} (h : OnFollowed names (.object entries) P) : OnEntries entries P :=
  fun _ _ hw => h.inside (Json.height_lt_object hw)

end OnFollowed

/-- Checks that agree on every item have the same violations by the items. -/
theorem itemViolations_congr {check check' : Json → List Violation} : ∀ (i : Nat) {items : List Json},
    (∀ v ∈ items, check v = check' v) → itemViolations check i items = itemViolations check' i items
  | _, [], _ => rfl
  | i, v :: items, h => by
    rw [itemViolations, itemViolations, h v List.mem_cons_self,
      itemViolations_congr (i + 1) fun w hw => h w (List.mem_cons_of_mem _ hw)]

/-- No violation among some is that of a reference nested too deep. -/
def Shallow (vs : List Violation) : Prop := ∀ x ∈ vs, x.rule ≠ .depthExceeded

theorem shallow_nil : Shallow [] := fun _ h => by cases h

theorem Shallow.append {vs ws : List Violation} (hv : Shallow vs) (hw : Shallow ws) : Shallow (vs ++ ws) :=
  fun x hx => (List.mem_append.1 hx).elim (hv x) (hw x)

theorem Shallow.under {vs : List Violation} (h : Shallow vs) (s : Segment) : Shallow (vs.map (·.under s)) := by
  intro x hx
  obtain ⟨y, hy, rfl⟩ := List.mem_map.1 hx
  exact h y hy

theorem shallow_itemViolations {check : Json → List Violation} : ∀ (i : Nat) {items : List Json},
    (∀ v ∈ items, Shallow (check v)) → Shallow (itemViolations check i items)
  | _, [], _ => shallow_nil
  | i, v :: items, h => by
    rw [itemViolations]
    exact ((h v List.mem_cons_self).under _).append
      (shallow_itemViolations (i + 1) fun w hw => h w (List.mem_cons_of_mem _ hw))

namespace Constraint

mutual

/-- A constraint decides a value alike when its references are decided alike. -/
theorem allows_congr {f g : String → Json → Bool} : ∀ (c : Constraint) (v : Json),
    OnFollowed c.heads v (fun name w => f name w = g name w) → c.allows f v = c.allows g v
  | kind _, _, _ => by rw [allows, allows]
  | range _ _ _, _, _ => by rw [allows, allows]
  | format _, _, _ => by rw [allows, allows]
  | literal _, _, _ => by rw [allows, allows]
  | union cs, v, h => by
    rw [allows, allows]
    exact allowsAny_congr cs v h
  | optional c, v, h => by
    rw [allows, allows]
    exact allows_congr c v h
  | reference name, v, h => by
    rw [allows, allows]
    exact h.here name (by simp [heads])
  | array c, v, h => by
    cases v with
    | array items =>
      rw [allows, allows, Bool.eq_iff_iff, List.all_eq_true, List.all_eq_true]
      refine forall₂_congr fun w hw => ?_
      rw [allows_congr c w (h.items w hw _)]
    | _ => simp [allows]
  | tuple cs, v, h => by
    cases v with
    | array items =>
      rw [allows, allows]
      exact allowsEach_congr cs items h.items
    | _ => simp [allows]

theorem allowsAny_congr {f g : String → Json → Bool} : ∀ (cs : List Constraint) (v : Json),
    OnFollowed (headsAll cs) v (fun name w => f name w = g name w) → allowsAny f cs v = allowsAny g cs v
  | [], _, _ => rfl
  | c :: cs, v, h => by
    rw [headsAll] at h
    rw [allowsAny, allowsAny, allows_congr c v (h.mono fun _ hn => List.mem_append_left _ hn),
      allowsAny_congr cs v (h.mono fun _ hn => List.mem_append_right _ hn)]

theorem allowsEach_congr {f g : String → Json → Bool} : ∀ (cs : List Constraint) (items : List Json),
    OnItems items (fun name w => f name w = g name w) →
      allowsEach f cs items = allowsEach g cs items
  | [], [], _ => rfl
  | [], _ :: _, _ => rfl
  | _ :: _, [], _ => rfl
  | c :: cs, w :: items, h => by
    rw [allowsEach, allowsEach, allows_congr c w (h w List.mem_cons_self _),
      allowsEach_congr cs items fun u hu => h u (List.mem_cons_of_mem _ hu)]

end

theorem refusal_congr {f g : String → Json → Bool} (c : Constraint) (v : Json)
    (h : OnFollowed c.heads v (fun name w => f name w = g name w)) : c.refusal f v = c.refusal g v := by
  unfold refusal
  rw [allows_congr c v h]

theorem shallow_refusal (allow : String → Json → Bool) (c : Constraint) (v : Json) : Shallow (c.refusal allow v) := by
  unfold refusal
  split
  · exact shallow_nil
  · intro x hx
    rw [List.mem_singleton.1 hx]
    cases c <;> simp [Violation.ofValue, rule]

theorem shallow_tupleMismatch (length : Nat) (v : Json) : Shallow [tupleMismatch length v] := by
  intro x hx
  rw [List.mem_singleton.1 hx]
  simp [tupleMismatch]

end Constraint

/-- Two ways to follow references decide a value alike and diagnose it alike. -/
def Alike (allow allow' : String → Json → Bool) (follow follow' : String → Json → List Violation) (name : String)
    (w : Json) : Prop :=
  allow name w = allow' name w ∧ follow name w = follow' name w

namespace Constraint

section Violations

variable {allow allow' : String → Json → Bool} {follow follow' : String → Json → List Violation}

mutual

/-- A constraint diagnoses a value alike when its references are decided and diagnosed alike. -/
theorem violations_congr : ∀ (c : Constraint) (v : Json), OnFollowed c.heads v (Alike allow allow' follow follow') →
    c.violations allow follow v = c.violations allow' follow' v
  | kind _, v, h => by rw [violations, violations, refusal_congr _ v (h.imp fun _ _ ha => ha.1)]
  | range _ _ _, v, h => by rw [violations, violations, refusal_congr _ v (h.imp fun _ _ ha => ha.1)]
  | format _, v, h => by rw [violations, violations, refusal_congr _ v (h.imp fun _ _ ha => ha.1)]
  | literal _, v, h => by rw [violations, violations, refusal_congr _ v (h.imp fun _ _ ha => ha.1)]
  | union _, v, h => by rw [violations, violations, refusal_congr _ v (h.imp fun _ _ ha => ha.1)]
  | optional c, v, h => by
    rw [violations, violations]
    exact violations_congr c v h
  | reference name, v, h => by
    rw [violations, violations]
    exact (h.here name (by simp [heads])).2
  | array c, v, h => by
    cases v with
    | array items =>
      rw [violations, violations]
      exact itemViolations_congr 0 fun w hw => violations_congr c w (h.items w hw _)
    | _ => simp [violations]
  | tuple cs, v, h => by
    cases v with
    | array items =>
      rw [violations, violations, violationsEach_congr 0 cs items h.items]
    | _ => simp [violations]

theorem violationsEach_congr : ∀ (i : Nat) (cs : List Constraint) (items : List Json),
    OnItems items (Alike allow allow' follow follow') →
      violationsEach allow follow i cs items = violationsEach allow' follow' i cs items
  | _, [], _, _ => by simp [violationsEach]
  | _, _ :: _, [], _ => by simp [violationsEach]
  | i, c :: cs, w :: items, h => by
    rw [violationsEach, violationsEach, violations_congr c w (h w List.mem_cons_self _),
      violationsEach_congr (i + 1) cs items fun u hu => h u (List.mem_cons_of_mem _ hu)]

end

mutual

/-- A constraint reports no depth of its own. -/
theorem shallow_violations : ∀ (c : Constraint) (v : Json),
    OnFollowed c.heads v (fun name w => Shallow (follow name w)) → Shallow (c.violations allow follow v)
  | kind _, v, _ => by rw [violations]; exact shallow_refusal allow _ v
  | range _ _ _, v, _ => by rw [violations]; exact shallow_refusal allow _ v
  | format _, v, _ => by rw [violations]; exact shallow_refusal allow _ v
  | literal _, v, _ => by rw [violations]; exact shallow_refusal allow _ v
  | union _, v, _ => by rw [violations]; exact shallow_refusal allow _ v
  | optional c, v, h => by
    rw [violations]
    exact shallow_violations c v h
  | reference name, v, h => by
    rw [violations]
    exact h.here name (by simp [heads])
  | array c, v, h => by
    cases v with
    | array items =>
      rw [violations]
      exact shallow_itemViolations 0 fun w hw => shallow_violations c w (h.items w hw _)
    | _ => simp [violations, Shallow, Violation.ofValue]
  | tuple cs, v, h => by
    cases v with
    | array items =>
      rw [violations]
      split
      · exact shallow_violationsEach 0 cs items h.items
      · exact shallow_tupleMismatch _ _
    | _ => simpa [violations] using shallow_tupleMismatch _ _

theorem shallow_violationsEach : ∀ (i : Nat) (cs : List Constraint) (items : List Json),
    OnItems items (fun name w => Shallow (follow name w)) → Shallow (violationsEach allow follow i cs items)
  | _, [], _, _ => by simpa [violationsEach] using shallow_nil
  | _, _ :: _, [], _ => by simpa [violationsEach] using shallow_nil
  | i, c :: cs, w :: items, h => by
    rw [violationsEach]
    exact ((shallow_violations c w (h w List.mem_cons_self _)).under _).append
      (shallow_violationsEach (i + 1) cs items fun u hu => h u (List.mem_cons_of_mem _ hu))

end

end Violations

mutual

/-- A constraint normalizes a value alike when its references are normalized alike. -/
theorem normalize_congr {f g : String → Json → Json} : ∀ (c : Constraint) (v : Json),
    OnFollowed c.heads v (fun name w => f name w = g name w) → c.normalize f v = c.normalize g v
  | kind _, _, _ => by rw [normalize, normalize]
  | range _ _ _, _, _ => by rw [normalize, normalize]
  | format _, _, _ => by rw [normalize, normalize]
  | literal _, _, _ => by rw [normalize, normalize]
  | union _, _, _ => by rw [normalize, normalize]
  | optional c, v, h => by
    rw [normalize, normalize]
    exact normalize_congr c v h
  | reference name, v, h => by
    rw [normalize, normalize]
    exact h.here name (by simp [heads])
  | array c, v, h => by
    cases v with
    | array items =>
      rw [normalize, normalize]
      exact congrArg Json.array
        (List.map_congr_left fun w hw => normalize_congr c w (h.items w hw _))
    | _ => simp [normalize]
  | tuple cs, v, h => by
    cases v with
    | array items =>
      rw [normalize, normalize, normalizeEach_congr cs items h.items]
    | _ => simp [normalize]

theorem normalizeEach_congr {f g : String → Json → Json} : ∀ (cs : List Constraint) (items : List Json),
    OnItems items (fun name w => f name w = g name w) →
      normalizeEach f cs items = normalizeEach g cs items
  | [], _, _ => by simp [normalizeEach]
  | _ :: _, [], _ => by simp [normalizeEach]
  | c :: cs, w :: items, h => by
    rw [normalizeEach, normalizeEach, normalize_congr c w (h w List.mem_cons_self _),
      normalizeEach_congr cs items fun u hu => h u (List.mem_cons_of_mem _ hu)]

end

end Constraint

namespace Tree

section Violations

variable {allow allow' : String → Json → Bool} {follow follow' : String → Json → List Violation}

mutual

/-- **A tree diagnoses a value alike when its references are decided and diagnosed alike.** -/
theorem violations_congr : ∀ (t : Tree) (v : Json), OnFollowed t.heads v (Alike allow allow' follow follow') →
    t.violations allow follow v = t.violations allow' follow' v
  | leaf c, v, h => by
    rw [violations, violations]
    exact c.violations_congr v h
  | object fields policy, v, h => by
    cases v with
    | object entries => rw [violations, violations, violationsFields_congr fields entries h.entries]
    | _ => simp [violations]
  | array t, v, h => by
    cases v with
    | array items =>
      rw [violations, violations]
      exact itemViolations_congr 0 fun w hw => violations_congr t w (h.items w hw _)
    | _ => simp [violations]
  | tuple ts, v, h => by
    cases v with
    | array items => rw [violations, violations, violationsEach_congr 0 ts items h.items]
    | _ => simp [violations]

theorem violationsFields_congr : ∀ (fields : List Field) (entries : List (String × Json)),
    OnEntries entries (Alike allow allow' follow follow') →
      violationsFields allow follow fields entries = violationsFields allow' follow' fields entries
  | [], _, _ => by rw [violationsFields, violationsFields]
  | ⟨name, optional, t⟩ :: fields, entries, h => by
    rw [violationsFields, violationsFields, violationsFields_congr fields entries h]
    cases hl : entries.lookup name with
    | some v => simp only [violations_congr t v (h name v (mem_of_lookup hl) _)]
    | none => rfl

theorem violationsEach_congr : ∀ (i : Nat) (ts : List Tree) (items : List Json),
    OnItems items (Alike allow allow' follow follow') →
      violationsEach allow follow i ts items = violationsEach allow' follow' i ts items
  | _, [], _, _ => by simp [violationsEach]
  | _, _ :: _, [], _ => by simp [violationsEach]
  | i, t :: ts, w :: items, h => by
    rw [violationsEach, violationsEach, violations_congr t w (h w List.mem_cons_self _),
      violationsEach_congr (i + 1) ts items fun u hu => h u (List.mem_cons_of_mem _ hu)]

end

theorem shallow_extraViolations (fields : List Field) (entries : List (String × Json)) :
    Shallow (extraViolations fields entries) := by
  intro x hx
  obtain ⟨e, -, rfl⟩ := List.mem_map.1 hx
  simp [Violation.under, Violation.ofValue]

mutual

/-- **A tree reports no depth of its own.** -/
theorem shallow_violations : ∀ (t : Tree) (v : Json),
    OnFollowed t.heads v (fun name w => Shallow (follow name w)) → Shallow (t.violations allow follow v)
  | leaf c, v, h => by
    rw [violations]
    exact c.shallow_violations v h
  | object fields policy, v, h => by
    cases v with
    | object entries =>
      rw [violations]
      refine (shallow_violationsFields fields entries h.entries).append ?_
      split
      · exact shallow_extraViolations fields entries
      · exact shallow_nil
    | _ => simp [violations, Shallow, Violation.ofValue]
  | array t, v, h => by
    cases v with
    | array items =>
      rw [violations]
      exact shallow_itemViolations 0 fun w hw => shallow_violations t w (h.items w hw _)
    | _ => simp [violations, Shallow, Violation.ofValue]
  | tuple ts, v, h => by
    cases v with
    | array items =>
      rw [violations]
      split
      · exact shallow_violationsEach 0 ts items h.items
      · exact Constraint.shallow_tupleMismatch _ _
    | _ => simpa [violations] using Constraint.shallow_tupleMismatch _ _

theorem shallow_violationsFields : ∀ (fields : List Field) (entries : List (String × Json)),
    OnEntries entries (fun name w => Shallow (follow name w)) →
      Shallow (violationsFields allow follow fields entries)
  | [], _, _ => by simpa [violationsFields] using shallow_nil
  | ⟨name, optional, t⟩ :: fields, entries, h => by
    rw [violationsFields]
    refine Shallow.append ?_ (shallow_violationsFields fields entries h)
    cases hl : entries.lookup name with
    | some v => exact (shallow_violations t v (h name v (mem_of_lookup hl) _)).under _
    | none => cases optional <;> simp [Shallow]

theorem shallow_violationsEach : ∀ (i : Nat) (ts : List Tree) (items : List Json),
    OnItems items (fun name w => Shallow (follow name w)) → Shallow (violationsEach allow follow i ts items)
  | _, [], _, _ => by simpa [violationsEach] using shallow_nil
  | _, _ :: _, [], _ => by simpa [violationsEach] using shallow_nil
  | i, t :: ts, w :: items, h => by
    rw [violationsEach]
    exact ((shallow_violations t w (h w List.mem_cons_self _)).under _).append
      (shallow_violationsEach (i + 1) ts items fun u hu => h u (List.mem_cons_of_mem _ hu))

end

end Violations

mutual

/-- **A tree normalizes a value alike when its references are normalized alike.** -/
theorem normalize_congr {f g : String → Json → Json} : ∀ (t : Tree) (v : Json),
    OnFollowed t.heads v (fun name w => f name w = g name w) → t.normalize f v = t.normalize g v
  | leaf c, v, h => by
    rw [normalize, normalize]
    exact c.normalize_congr v h
  | object fields policy, v, h => by
    cases v with
    | object entries =>
      rw [normalize, normalize]
      refine congrArg Json.object (List.filterMap_congr fun (k, w) he => ?_)
      simp only [normalizeField_congr fields k w (h.entries k w he)]
    | _ => simp [normalize]
  | array t, v, h => by
    cases v with
    | array items =>
      rw [normalize, normalize]
      exact congrArg Json.array (List.map_congr_left fun w hw => normalize_congr t w (h.items w hw _))
    | _ => simp [normalize]
  | tuple ts, v, h => by
    cases v with
    | array items => rw [normalize, normalize, normalizeEach_congr ts items h.items]
    | _ => simp [normalize]

theorem normalizeField_congr {f g : String → Json → Json} : ∀ (fields : List Field) (k : String) (w : Json),
    (∀ names, OnFollowed names w (fun name w => f name w = g name w)) →
      normalizeField f fields k w = normalizeField g fields k w
  | [], _, _, _ => by rw [normalizeField, normalizeField]
  | ⟨name, optional, t⟩ :: fields, k, w, h => by
    rw [normalizeField, normalizeField, normalize_congr t w (h _), normalizeField_congr fields k w h]

theorem normalizeEach_congr {f g : String → Json → Json} : ∀ (ts : List Tree) (items : List Json),
    OnItems items (fun name w => f name w = g name w) → normalizeEach f ts items = normalizeEach g ts items
  | [], _, _ => by simp [normalizeEach]
  | _ :: _, [], _ => by simp [normalizeEach]
  | t :: ts, w :: items, h => by
    rw [normalizeEach, normalizeEach, normalize_congr t w (h w List.mem_cons_self _),
      normalizeEach_congr ts items fun u hu => h u (List.mem_cons_of_mem _ hu)]

end

end Tree

end Assay
