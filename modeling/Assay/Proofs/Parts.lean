import Assay.Proofs.Equality
import Assay.Proofs.Locality
/-!
# The evaluators part by part

What the evaluators of constraints and trees do with the parts of a value, said of the parts by their indices and keys:
places of tuples (`Tree.allowsEach_iff`, `Tree.getElem?_normalizeEach`), fields of objects (`Tree.allowsFields_iff`,
`Tree.normalizeField_eq`) and the keys that are left in a normal form (`Tree.lookup_normalizeEntries`).
-/
namespace Assay

section Lists

variable {α β : Type} {as : List α} {bs : List β}

/-- Lists of one length have the same places. -/
theorem exists_getElem? (hl : as.length = bs.length) {i : Nat} {a : α} (ha : as[i]? = some a) : ∃ b, bs[i]? = some b :=
  ⟨_, List.getElem?_eq_getElem (hl ▸ (List.getElem?_eq_some_iff.1 ha).1)⟩

/-- What holds place by place holds of the heads and place by place of the tails. -/
theorem forall_places_cons {R : α → β → Prop} {a : α} {b : β} :
    (∀ (i : Nat) (x : α) (y : β), (a :: as)[i]? = some x → (b :: bs)[i]? = some y → R x y) ↔
      R a b ∧ ∀ (i : Nat) (x : α) (y : β), as[i]? = some x → bs[i]? = some y → R x y := by
  constructor
  · intro h
    exact ⟨h 0 a b rfl rfl, fun i x y hx hy => h (i + 1) x y hx hy⟩
  · rintro ⟨h0, h⟩ i x y hx hy
    cases i with
    | zero => cases hx; cases hy; exact h0
    | succ i => exact h i x y hx hy

end Lists

variable {allow : String → Json → Bool} {follow : String → Json → Json}

namespace Constraint

/-- A tuple is allowed place by place. -/
theorem allowsEach_iff : ∀ {cs : List Constraint} {vs : List Json}, allowsEach allow cs vs = true ↔
    cs.length = vs.length ∧ ∀ (i : Nat) (c : Constraint) (v : Json), cs[i]? = some c → vs[i]? = some v →
      c.allows allow v = true
  | [], [] => by simp [allowsEach]
  | [], _ :: _ => by simp [allowsEach]
  | _ :: _, [] => by simp [allowsEach]
  | c :: cs, v :: vs => by
    rw [allowsEach, Bool.and_eq_true, allowsEach_iff, forall_places_cons, List.length_cons, List.length_cons,
      Nat.add_right_cancel_iff, and_left_comm]

theorem length_normalizeEach : ∀ (cs : List Constraint) (vs : List Json),
    (normalizeEach follow cs vs).length = vs.length
  | [], _ => by simp [normalizeEach]
  | _ :: _, [] => by simp [normalizeEach]
  | c :: cs, v :: vs => by rw [normalizeEach, List.length_cons, length_normalizeEach cs vs, List.length_cons]

/-- The normal form of a tuple at a place is that of the item there. -/
theorem getElem?_normalizeEach {c : Constraint} {v : Json} : ∀ {cs : List Constraint} {vs : List Json} {i : Nat},
    cs[i]? = some c → vs[i]? = some v → (normalizeEach follow cs vs)[i]? = some (c.normalize follow v)
  | _ :: _, _ :: _, 0, hc, hv => by cases hc; cases hv; rw [normalizeEach]; rfl
  | _ :: cs, _ :: vs, i + 1, hc, hv => by
    rw [normalizeEach]
    show (normalizeEach follow cs vs)[i]? = _
    exact getElem?_normalizeEach hc hv

/-- The items past a tuple stay as they are. -/
theorem getElem?_normalizeEach_of_none : ∀ {cs : List Constraint} {i : Nat}, cs[i]? = none → ∀ (vs : List Json),
    (normalizeEach follow cs vs)[i]? = vs[i]?
  | [], _, _, _ => by simp only [normalizeEach]
  | _ :: _, _, _, [] => by simp only [normalizeEach]
  | _ :: _, 0, hc, _ :: _ => by cases hc
  | _ :: cs, i + 1, hc, _ :: vs => by
    rw [List.getElem?_cons_succ] at hc
    rw [normalizeEach, List.getElem?_cons_succ, List.getElem?_cons_succ, getElem?_normalizeEach_of_none hc vs]

end Constraint

namespace Tree

/-- A tuple is allowed place by place. -/
theorem allowsEach_iff : ∀ {ts : List Tree} {vs : List Json}, allowsEach allow ts vs = true ↔
    ts.length = vs.length ∧ ∀ (i : Nat) (t : Tree) (v : Json), ts[i]? = some t → vs[i]? = some v →
      t.allows allow v = true
  | [], [] => by simp [allowsEach]
  | [], _ :: _ => by simp [allowsEach]
  | _ :: _, [] => by simp [allowsEach]
  | t :: ts, v :: vs => by
    rw [allowsEach, Bool.and_eq_true, allowsEach_iff, forall_places_cons, List.length_cons, List.length_cons,
      Nat.add_right_cancel_iff, and_left_comm]

theorem length_normalizeEach : ∀ (ts : List Tree) (vs : List Json), (normalizeEach follow ts vs).length = vs.length
  | [], _ => by simp [normalizeEach]
  | _ :: _, [] => by simp [normalizeEach]
  | t :: ts, v :: vs => by rw [normalizeEach, List.length_cons, length_normalizeEach ts vs, List.length_cons]

/-- The normal form of a tuple at a place is that of the item there. -/
theorem getElem?_normalizeEach {t : Tree} {v : Json} : ∀ {ts : List Tree} {vs : List Json} {i : Nat},
    ts[i]? = some t → vs[i]? = some v → (normalizeEach follow ts vs)[i]? = some (t.normalize follow v)
  | _ :: _, _ :: _, 0, ht, hv => by cases ht; cases hv; rw [normalizeEach]; rfl
  | _ :: ts, _ :: vs, i + 1, ht, hv => by
    rw [normalizeEach]
    show (normalizeEach follow ts vs)[i]? = _
    exact getElem?_normalizeEach ht hv

/-- The items past a tuple stay as they are. -/
theorem getElem?_normalizeEach_of_none : ∀ {ts : List Tree} {i : Nat}, ts[i]? = none → ∀ (vs : List Json),
    (normalizeEach follow ts vs)[i]? = vs[i]?
  | [], _, _, _ => by simp only [normalizeEach]
  | _ :: _, _, _, [] => by simp only [normalizeEach]
  | _ :: _, 0, ht, _ :: _ => by cases ht
  | _ :: ts, i + 1, ht, _ :: vs => by
    rw [List.getElem?_cons_succ] at ht
    rw [normalizeEach, List.getElem?_cons_succ, List.getElem?_cons_succ, getElem?_normalizeEach_of_none ht vs]

/-- **The fields of an object are allowed** when each is present with an allowed value, or absent and optional. -/
theorem allowsFields_iff {entries : List (String × Json)} : ∀ {fields : List Field},
    allowsFields allow fields entries = true ↔
      (∀ f ∈ fields, ∀ v, entries.lookup f.name = some v → f.node.allows allow v = true) ∧
        ∀ f ∈ fields, entries.lookup f.name = none → f.optional = true
  | [] => by simp [allowsFields]
  | ⟨name, optional, t⟩ :: fields => by
    rw [allowsFields, Bool.and_eq_true, allowsFields_iff, List.forall_mem_cons, List.forall_mem_cons, and_and_and_comm]
    refine and_congr_left fun _ => ?_
    cases entries.lookup name <;> simp

/-- The normal form of a value at a key is that of the first field of its name. -/
theorem normalizeField_eq (k : String) (v : Json) : ∀ (fields : List Field), normalizeField follow fields k v =
    (fields.find? (·.name == k)).map fun f => f.node.normalize follow v
  | [] => by rw [normalizeField]; rfl
  | ⟨name, optional, t⟩ :: fields => by
    rw [normalizeField, List.find?_cons]
    by_cases h : name = k
    · rw [if_pos h, beq_iff_eq.2 h]; rfl
    · rw [if_neg h, beq_false_of_ne h]
      exact normalizeField_eq k v fields

end Tree

/-- The first field of a name. -/
theorem mem_of_find? {fields : List Field} {k : String} {f : Field} (h : fields.find? (·.name == k) = some f) :
    f ∈ fields ∧ f.name = k := by
  have hk := List.find?_some h
  exact ⟨List.mem_of_find?_eq_some h, beq_iff_eq.1 hk⟩

/-- Among fields of distinct names, each is found by its name. -/
theorem find?_of_mem {α : Type} {name : α → String} {a : α} : ∀ {as : List α}, (as.map name).Nodup → a ∈ as →
    as.find? (name · == name a) = some a
  | b :: as, hd, ha => by
    rw [List.map_cons, List.nodup_cons] at hd
    rw [List.find?_cons]
    rcases List.mem_cons.1 ha with rfl | ha
    · rw [beq_self_eq_true]
    · have hne : name b ≠ name a := fun he => hd.1 (he ▸ List.mem_map_of_mem ha)
      rw [beq_false_of_ne hne]
      exact find?_of_mem hd.2 ha

theorem declares_eq_false_iff {fields : List Field} {k : String} :
    declares fields k = false ↔ fields.find? (·.name == k) = none := by
  unfold declares
  rw [List.any_eq_false, List.find?_eq_none]

namespace Tree

/-- The entries that are left in the normal form of an object. -/
def normalizeEntries (follow : String → Json → Json) (fields : List Field) (policy : Policy)
    (entries : List (String × Json)) : List (String × Json) :=
  entries.filterMap fun (k, x) => match normalizeField follow fields k x with
    | some y => some (k, y)
    | none => if policy = .strip then none else some (k, x)

theorem normalize_object (fields : List Field) (policy : Policy) (entries : List (String × Json)) :
    (object fields policy).normalize follow (.object entries) =
      .object (normalizeEntries follow fields policy entries) := by
  rw [normalize]
  rfl

theorem normalizeEntries_cons (fields : List Field) (policy : Policy) (k : String) (x : Json)
    (entries : List (String × Json)) : normalizeEntries follow fields policy ((k, x) :: entries) =
      match fields.find? (·.name == k) with
      | some f => (k, f.node.normalize follow x) :: normalizeEntries follow fields policy entries
      | none => if policy = .strip then normalizeEntries follow fields policy entries
        else (k, x) :: normalizeEntries follow fields policy entries := by
  unfold normalizeEntries
  rw [List.filterMap_cons]
  dsimp only
  rw [normalizeField_eq]
  cases fields.find? (·.name == k) with
  | some f => rfl
  | none => by_cases h : policy = .strip <;> simp [h]

/-- **What is left at a declared key** is the normal form of what was there. -/
theorem lookup_normalizeEntries {fields : List Field} {k : String} {f : Field}
    (hf : fields.find? (·.name == k) = some f) (policy : Policy) : ∀ (entries : List (String × Json)),
      (normalizeEntries follow fields policy entries).lookup k = (entries.lookup k).map (f.node.normalize follow)
  | [] => rfl
  | (k', x) :: entries => by
    rw [normalizeEntries_cons, List.lookup_cons]
    by_cases he : k = k'
    · subst he
      rw [hf, beq_self_eq_true]
      dsimp only
      rw [List.lookup_cons, beq_self_eq_true]
      rfl
    · rw [beq_false_of_ne he, ← lookup_normalizeEntries hf policy entries]
      split
      · rw [List.lookup_cons, beq_false_of_ne he]
      · split
        · rfl
        · rw [List.lookup_cons, beq_false_of_ne he]

/-- What is left of an object that strips is declared. -/
theorem declares_of_mem_normalizeEntries {fields : List Field} {k : String} {y : Json} :
    ∀ {entries : List (String × Json)}, (k, y) ∈ normalizeEntries follow fields .strip entries →
      declares fields k = true
  | [], h => by cases h
  | (k', x) :: entries, h => by
    rw [normalizeEntries_cons] at h
    cases hf : fields.find? (·.name == k') with
    | none =>
      rw [hf] at h
      have hm : (k, y) ∈ normalizeEntries follow fields .strip entries := h
      exact declares_of_mem_normalizeEntries hm
    | some f =>
      rw [hf] at h
      rcases List.mem_cons.1 h with he | hm
      · cases he
        exact Bool.ne_false_iff.1 fun hn => by rw [declares_eq_false_iff.1 hn] at hf; cases hf
      · exact declares_of_mem_normalizeEntries hm

end Tree

end Assay
