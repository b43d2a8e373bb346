import Assay.Json.Document
import Assay.Proofs.Locality
import Mathlib.Data.List.Induction
import Mathlib.Logic.Relation
/-!
# What stands at a path

A path leads to a part of a value (`Json.at?`) and, under a tree, to the trees that check what stands there
(`Tree.Checks`): a constraint inside a leaf counts as a leaf of its own, and a reference leads on to the tree of its
definition at the same place.  Tree and value together go down step by step (`Tree.Meets`), since in a value without
repeated keys what an object holds at a key is found there.  The unions among these trees are written in the root or in
a definition (`Tree.Checks.mem_unions`), and the trees at one path hand the value on to each other, so that no two of
them are objects (`Tree.Checks.object_unique`).
-/
namespace Assay

namespace Json

/-- The part of a value that one step leads to. -/
def step? : Json → Segment → Option Json
  | .object entries, .key k => entries.lookup k
  | .array items, .index i => items[i]?
  | _, _ => none

/-- The part of a value that a path leads to. -/
def at? (x : Json) (p : Path) : Option Json := p.foldlM step? x

theorem at?_cons (x : Json) (s : Segment) (p : Path) : x.at? (s :: p) = (x.step? s).bind (·.at? p) := List.foldlM_cons

theorem at?_push (x : Json) (p : Path) (s : Segment) : x.at? (p.push s) = (x.at? p).bind (·.step? s) := by
  unfold at? Path.push
  rw [List.foldlM_append]
  simp

theorem at?_push_of {x y : Json} {p : Path} (h : x.at? p = some y) (s : Segment) : x.at? (p.push s) = y.step? s := by
  rw [at?_push, h, Option.bind_some]

theorem at?_push_eq_some_iff {x y : Json} {p : Path} {s : Segment} :
    x.at? (p.push s) = some y ↔ ∃ z, x.at? p = some z ∧ z.step? s = some y := by
  rw [at?_push, Option.bind_eq_some_iff]

end Json

/-- Where no key comes twice, every entry is the one found at its key. -/
theorem lookup_of_mem {α : Type} {k : String} {a : α} : ∀ {entries : List (String × α)},
    (entries.map (·.1)).Nodup → (k, a) ∈ entries → entries.lookup k = some a
  | (k', b) :: entries, hd, h => by
    rw [List.map_cons, List.nodup_cons] at hd
    rw [List.lookup_cons]
    rcases List.mem_cons.1 h with h | h
    · cases h
      rw [beq_self_eq_true]
    · have hne : k ≠ k' := fun he => hd.1 (List.mem_map.2 ⟨(k, a), h, he⟩)
      rw [beq_false_of_ne hne]
      exact lookup_of_mem hd.2 h

/-- Where no key comes twice, the order of the entries does not matter to a search. -/
theorem lookup_eq_of_perm {α : Type} {entries entries' : List (String × α)} (hp : entries.Perm entries')
    (hd : (entries.map (·.1)).Nodup) (k : String) : entries.lookup k = entries'.lookup k := by
  have hd' : (entries'.map (·.1)).Nodup := (hp.map _).nodup_iff.1 hd
  refine Option.ext fun a => ⟨fun h => ?_, fun h => ?_⟩
  · exact lookup_of_mem hd' (hp.mem_iff.1 (mem_of_lookup h))
  · exact lookup_of_mem hd (hp.mem_iff.2 (mem_of_lookup h))

namespace Tree

/-- **The trees that check what stands at a path**, under a root whose references follow `defs`. -/
inductive Checks (defs : Definitions) (root : Tree) : Path → Tree → Prop
  | root : Checks defs root [] root
  | field {p : Path} {fields : List Field} {policy : Policy} {k : String} {f : Field} :
    Checks defs root p (object fields policy) → fields.find? (·.name == k) = some f →
      Checks defs root (p.push (.key k)) f.node
  | item {p : Path} {t : Tree} (i : Nat) : Checks defs root p (array t) → Checks defs root (p.push (.index i)) t
  | place {p : Path} {ts : List Tree} {i : Nat} {t : Tree} :
    Checks defs root p (tuple ts) → ts[i]? = some t → Checks defs root (p.push (.index i)) t
  | leafItem {p : Path} {c : Constraint} (i : Nat) :
    Checks defs root p (leaf c.array) → Checks defs root (p.push (.index i)) (leaf c)
  | leafPlace {p : Path} {cs : List Constraint} {i : Nat} {c : Constraint} :
    Checks defs root p (leaf (.tuple cs)) → cs[i]? = some c → Checks defs root (p.push (.index i)) (leaf c)
  | inner {p : Path} {c : Constraint} : Checks defs root p (leaf c.optional) → Checks defs root p (leaf c)
  | definition {p : Path} {name : String} {t : Tree} :
    Checks defs root p (leaf (.reference name)) → defs.lookup name = some t → Checks defs root p t

/-- The tree checks the value at a path of `x₀`, and no key comes twice in this value. -/
structure Meets (defs : Definitions) (root : Tree) (x₀ : Json) (p : Path) (t : Tree) (v : Json) : Prop where
  checks : Checks defs root p t
  found : x₀.at? p = some v
  distinct : v.distinctKeys = true

namespace Meets

variable {defs : Definitions} {root : Tree} {x₀ x : Json} {p : Path}

theorem start (x : Document) : Meets defs root x.value [] root x.value := ⟨.root, rfl, x.distinct⟩

theorem field {fields : List Field} {policy : Policy} {entries : List (String × Json)} {k : String} {f : Field}
    (h : Meets defs root x₀ p (object fields policy) (.object entries)) (hf : fields.find? (·.name == k) = some f)
    (hx : entries.lookup k = some x) : Meets defs root x₀ (p.push (.key k)) f.node x :=
  ⟨h.checks.field hf, (Json.at?_push_of h.found _).trans hx,
    (Json.distinctKeys_object.1 h.distinct).2 _ (mem_of_lookup hx)⟩

theorem item {t : Tree} {items : List Json} {i : Nat} (h : Meets defs root x₀ p (array t) (.array items))
    (hx : items[i]? = some x) : Meets defs root x₀ (p.push (.index i)) t x :=
  ⟨h.checks.item i, (Json.at?_push_of h.found _).trans hx,
    Json.distinctKeys_array.1 h.distinct x (List.mem_of_getElem? hx)⟩

theorem place {ts : List Tree} {t : Tree} {items : List Json} {i : Nat}
    (h : Meets defs root x₀ p (tuple ts) (.array items)) (ht : ts[i]? = some t) (hx : items[i]? = some x) :
      Meets defs root x₀ (p.push (.index i)) t x :=
  ⟨h.checks.place ht, (Json.at?_push_of h.found _).trans hx,
    Json.distinctKeys_array.1 h.distinct x (List.mem_of_getElem? hx)⟩

theorem leafItem {c : Constraint} {items : List Json} {i : Nat}
    (h : Meets defs root x₀ p (leaf c.array) (.array items)) (hx : items[i]? = some x) :
      Meets defs root x₀ (p.push (.index i)) (leaf c) x :=
  ⟨h.checks.leafItem i, (Json.at?_push_of h.found _).trans hx,
    Json.distinctKeys_array.1 h.distinct x (List.mem_of_getElem? hx)⟩

theorem leafPlace {cs : List Constraint} {c : Constraint} {items : List Json} {i : Nat}
    (h : Meets defs root x₀ p (leaf (.tuple cs)) (.array items)) (hc : cs[i]? = some c) (hx : items[i]? = some x) :
      Meets defs root x₀ (p.push (.index i)) (leaf c) x :=
  ⟨h.checks.leafPlace hc, (Json.at?_push_of h.found _).trans hx,
    Json.distinctKeys_array.1 h.distinct x (List.mem_of_getElem? hx)⟩

theorem inner {c : Constraint} (h : Meets defs root x₀ p (leaf c.optional) x) : Meets defs root x₀ p (leaf c) x :=
  ⟨h.checks.inner, h.found, h.distinct⟩

theorem definition {name : String} {t : Tree} (h : Meets defs root x₀ p (leaf (.reference name)) x)
    (ht : defs.lookup name = some t) : Meets defs root x₀ p t x :=
  ⟨h.checks.definition ht, h.found, h.distinct⟩

end Meets

/-- A key of the object at a path is stripped: the object is checked by one that strips what it does not declare, and
does not declare this key. -/
def Strips (defs : Definitions) (root : Tree) (p : Path) (k : String) : Prop :=
  ∃ fields, Checks defs root p (object fields .strip) ∧ declares fields k = false

end Tree

namespace Constraint

mutual

/-- The unions in a constraint, each by its alternatives, but not those inside other unions. -/
def unions : Constraint → List (List Constraint)
  | union cs => [cs]
  | array c => unions c
  | tuple cs => unionsEach cs
  | optional c => unions c
  | _ => []

def unionsEach : List Constraint → List (List Constraint)
  | [] => []
  | c :: cs => unions c ++ unionsEach cs

end

theorem unions_subset_unionsEach {c : Constraint} : ∀ {cs : List Constraint}, c ∈ cs → unions c ⊆ unionsEach cs
  | d :: cs, h => by
    rw [unionsEach]
    rcases List.mem_cons.1 h with rfl | h
    · exact List.subset_append_left _ _
    · exact List.Subset.trans (unions_subset_unionsEach h) (List.subset_append_right _ _)

end Constraint

namespace Tree

mutual

/-- The unions in the leaves of a tree. -/
def unions : Tree → List (List Constraint)
  | leaf c => c.unions
  | object fields _ => unionsFields fields
  | array t => unions t
  | tuple ts => unionsEach ts

def unionsFields : List Field → List (List Constraint)
  | [] => []
  | ⟨_, _, t⟩ :: fields => unions t ++ unionsFields fields

def unionsEach : List Tree → List (List Constraint)
  | [] => []
  | t :: ts => unions t ++ unionsEach ts

end

theorem unions_subset_unionsFields {f : Field} : ∀ {fields : List Field}, f ∈ fields →
    f.node.unions ⊆ unionsFields fields
  | ⟨_, _, _⟩ :: fields, h => by
    rw [unionsFields]
    rcases List.mem_cons.1 h with rfl | h
    · exact List.subset_append_left _ _
    · exact List.Subset.trans (unions_subset_unionsFields h) (List.subset_append_right _ _)

theorem unions_subset_unionsEach {t : Tree} : ∀ {ts : List Tree}, t ∈ ts → t.unions ⊆ unionsEach ts
  | u :: ts, h => by
    rw [unionsEach]
    rcases List.mem_cons.1 h with rfl | h
    · exact List.subset_append_left _ _
    · exact List.Subset.trans (unions_subset_unionsEach h) (List.subset_append_right _ _)

/-- **Whatever checks a part of a value was written in the root or in a definition**: its unions are theirs. -/
theorem Checks.mem_unions {defs : Definitions} {root : Tree} {p : Path} {t : Tree} (h : Checks defs root p t) :
    ∀ cs ∈ t.unions, cs ∈ root.unions ∨ ∃ name u, defs.lookup name = some u ∧ cs ∈ u.unions := by
  induction h with
  | root => exact fun cs hcs => Or.inl hcs
  | field _ hf ih =>
    exact fun cs hcs => ih cs (unions_subset_unionsFields (List.mem_of_find?_eq_some hf) hcs)
  | item _ _ ih => exact ih
  | place _ ht ih => exact fun cs hcs => ih cs (unions_subset_unionsEach (List.mem_of_getElem? ht) hcs)
  | leafItem _ _ ih => exact ih
  | leafPlace _ hc ih =>
    exact fun cs hcs => ih cs (Constraint.unions_subset_unionsEach (List.mem_of_getElem? hc) hcs)
  | inner _ ih => exact ih
  | definition _ hl _ => exact fun cs hcs => Or.inr ⟨_, _, hl, hcs⟩

section Unique

variable {defs : Definitions} {root t u : Tree} {p : Path}

/-- The tree to which another one hands a value on. -/
def onward? (defs : Definitions) : Tree → Option Tree
  | leaf (.optional c) => some (leaf c)
  | leaf (.reference name) => defs.lookup name
  | _ => none

/-- The tree that a tree checks the value under a step with. -/
def child? : Tree → Segment → Option Tree
  | object fields _, .key k => (fields.find? (·.name == k)).map (·.node)
  | array t, .index _ => some t
  | tuple ts, .index i => ts[i]?
  | leaf (.array c), .index _ => some (leaf c)
  | leaf (.tuple cs), .index i => cs[i]?.map leaf
  | _, _ => none

/-- One tree hands a value on to the other, in any number of steps. -/
def Onward (defs : Definitions) : Tree → Tree → Prop := Relation.ReflTransGen fun t u => onward? defs t = some u

theorem onward?_eq_none_of_child? {s : Segment} (h : child? t s = some u) : onward? defs t = none := by
  cases t with
  | leaf c => cases c <;> first | rfl | cases h
  | _ => rfl

theorem Onward.eq_of_none (ht : onward? defs t = none) (h : Onward defs t u) : t = u := by
  rcases Relation.ReflTransGen.cases_head h with rfl | ⟨w, hw, -⟩
  · rfl
  · rw [ht] at hw
    cases hw

/-- What one tree hands on to is comparable. -/
theorem Onward.total {w : Tree} (ht : Onward defs w t) (hu : Onward defs w u) : Onward defs t u ∨ Onward defs u t :=
  Relation.ReflTransGen.total_of_right_unique (fun _ _ _ h h' => Option.some.inj (h.symm.trans h')) ht hu

/-- The tree at which the check of what stands at a path begins. -/
inductive Entry (defs : Definitions) (root : Tree) : Path → Tree → Prop
  | root : Entry defs root [] root
  | child {p q : Path} {s : Segment} {w e : Tree} :
    p = q.push s → Checks defs root q w → child? w s = some e → Entry defs root p e

theorem Checks.exists_entry (h : Checks defs root p t) : ∃ e, Entry defs root p e ∧ Onward defs e t := by
  induction h with
  | root => exact ⟨_, .root, .refl⟩
  | field hp hf _ => exact ⟨_, .child rfl hp (by rw [child?, hf]; rfl), .refl⟩
  | item i hp _ => exact ⟨_, .child rfl hp rfl, .refl⟩
  | place hp ht _ => exact ⟨_, .child rfl hp ht, .refl⟩
  | leafItem i hp _ => exact ⟨_, .child rfl hp rfl, .refl⟩
  | leafPlace hp hc _ => exact ⟨_, .child rfl hp (by rw [child?, hc]; rfl), .refl⟩
  | inner _ ih =>
    obtain ⟨e, he, ho⟩ := ih
    exact ⟨e, he, ho.tail rfl⟩
  | definition _ hl ih =>
    obtain ⟨e, he, ho⟩ := ih
    exact ⟨e, he, ho.tail hl⟩

/-- **Of two trees that check at one path, one is handed on to by the other.** -/
theorem Checks.total (ht : Checks defs root p t) (hu : Checks defs root p u) : Onward defs t u ∨ Onward defs u t := by
  induction p using List.reverseRecOn generalizing t u with
  | nil =>
    obtain ⟨e, he, hte⟩ := ht.exists_entry
    obtain ⟨e', he', hue⟩ := hu.exists_entry
    cases he with
    | root =>
      cases he' with
      | root => exact hte.total hue
      | child hp _ _ => simp [Path.push] at hp
    | child hp _ _ => simp [Path.push] at hp
  | append_singleton q s ih =>
    obtain ⟨e, he, hte⟩ := ht.exists_entry
    obtain ⟨e', he', hue⟩ := hu.exists_entry
    have hchild : ∀ {e : Tree}, Entry defs root (q ++ [s]) e → ∃ w, Checks defs root q w ∧ child? w s = some e := by
      intro e he
      generalize hq : q ++ [s] = p at he
      cases he with
      | root => simp at hq
      | child hp hw hs =>
        obtain ⟨rfl, hs'⟩ := List.append_inj' (hq.trans hp) rfl
        cases hs'
        exact ⟨_, hw, hs⟩
    obtain ⟨w, hw, hs⟩ := hchild he
    obtain ⟨w', hw', hs'⟩ := hchild he'
    have hww : w = w' := by
      rcases ih hw hw' with ho | ho
      · exact ho.eq_of_none (onward?_eq_none_of_child? hs)
      · exact (ho.eq_of_none (onward?_eq_none_of_child? hs')).symm
    subst hww
    cases hs.symm.trans hs'
    exact hte.total hue

/-- **What stands at a path is checked by one object at most.** -/
theorem Checks.object_unique {fields fields' : List Field} {policy policy' : Policy}
    (h : Checks defs root p (object fields policy)) (h' : Checks defs root p (object fields' policy')) :
      fields = fields' ∧ policy = policy' := by
  rcases h.total h' with ho | ho
  · exact object.inj (ho.eq_of_none rfl)
  · exact object.inj (ho.eq_of_none rfl).symm

end Unique

end Tree

namespace Validator

/-- The trees by which a validator checks what stands at a path. -/
def Checks (v : Validator) : Path → Tree → Prop := Tree.Checks v.scope v.root

def Strips (v : Validator) : Path → String → Prop := Tree.Strips v.scope v.root

end Validator

end Assay
