import Assay.Proofs.Isolation
import Assay.Proofs.Pointing
/-!
# Optional fields

An object that is allowed stays allowed when optional keys are taken out of it, and its normal form loses these keys and
nothing else.  A bad value at a declared key is found with its own violations, below this key, and with no others
(`Validator.optional_field_law`).  Both compare two runs over the fields, which see the same value at every name but the
ones that are touched: the frame of a run is what it looks up (`Tree.violationsFields_frame`).
-/
namespace Assay

namespace Json

/-- The object without the entries at some keys, and the others in their order. -/
def without (keys : List String) : Json → Json
  | object entries => object (entries.filter fun e => e.1 ∉ keys)
  | x => x

theorem lookup_without (keys : List String) (k : String) : ∀ (entries : List (String × Json)),
    (entries.filter fun e => e.1 ∉ keys).lookup k = if k ∈ keys then none else entries.lookup k
  | [] => by simp
  | (k', v) :: entries => by
    have ih := lookup_without keys k entries
    rw [List.filter_cons, List.lookup_cons]
    by_cases hk : k = k'
    · subst hk
      by_cases hm : k ∈ keys
      · simpa [hm] using ih
      · simp [hm]
    · have hb : (k == k') = false := beq_false_of_ne hk
      rw [hb, ← ih]
      split
      · rw [List.lookup_cons, hb]
      · rfl

end Json

namespace Tree

variable {allow : String → Json → Bool} {follow : String → Json → List Violation} {fields : List Field}
  {policy : Policy} {entries entries' : List (String × Json)}

/-- **The run over the fields depends on nothing but the values at their names.** -/
theorem violationsFields_frame : ∀ {fields : List Field}, (∀ f ∈ fields, entries.lookup f.name = entries'.lookup f.name) →
    violationsFields allow follow fields entries = violationsFields allow follow fields entries'
  | [], _ => by rw [violationsFields, violationsFields]
  | ⟨name, optional, t⟩ :: fields, h => by
    obtain ⟨hl, hrest⟩ := List.forall_mem_cons.1 h
    have hl : entries.lookup name = entries'.lookup name := hl
    rw [violationsFields, violationsFields, hl, violationsFields_frame hrest]

/-- **With one value exchanged, the run over fields that found nothing finds the violations of its field.** -/
theorem violationsFields_of_exchange {f : Field} {y : Json} : ∀ {fields : List Field}, (fields.map (·.name)).Nodup →
    f ∈ fields → violationsFields allow follow fields entries = [] → entries'.lookup f.name = some y →
      (∀ k, k ≠ f.name → entries'.lookup k = entries.lookup k) →
        violationsFields allow follow fields entries' = (f.node.violations allow follow y).map (·.under (.key f.name))
  | ⟨name, optional, t⟩ :: fields, hd, hm, hv, hy, hk => by
    rw [List.map_cons, List.nodup_cons] at hd
    rw [violationsFields, List.append_eq_nil_iff] at hv
    rcases List.mem_cons.1 hm with rfl | hm
    · have hrest : violationsFields allow follow fields entries' = [] := by
        rw [← hv.2]
        refine violationsFields_frame fun g hg => hk g.name fun he => hd.1 ?_
        exact he ▸ List.mem_map_of_mem hg
      have hy : entries'.lookup name = some y := hy
      rw [violationsFields, hrest, hy, List.append_nil]
    · have hne : name ≠ f.name := fun he => hd.1 (List.mem_map.2 ⟨f, hm, he.symm⟩)
      have hl : entries'.lookup name = entries.lookup name := hk name hne
      rw [violationsFields, hl, hv.1, List.nil_append]
      exact violationsFields_of_exchange hd.2 hm hv.2 hy hk

/-- The fields still allow an object without keys that belong to optional ones. -/
theorem allowsFields_without {keys : List String} (hd : (fields.map (·.name)).Nodup)
    (hk : ∀ k ∈ keys, ∃ f ∈ fields, f.name = k ∧ f.optional = true) (h : allowsFields allow fields entries = true) :
      allowsFields allow fields (entries.filter fun e => e.1 ∉ keys) = true := by
  obtain ⟨hpresent, habsent⟩ := allowsFields_iff.1 h
  refine allowsFields_iff.2 ⟨fun f hf v hv => ?_, fun f hf hv => ?_⟩
  · rw [Json.lookup_without] at hv
    by_cases hm : f.name ∈ keys
    · simp [hm] at hv
    · rw [if_neg hm] at hv
      exact hpresent f hf v hv
  · rw [Json.lookup_without] at hv
    by_cases hm : f.name ∈ keys
    · -- The optional field of this name is `f` itself, as there is no other.
      obtain ⟨g, hg, hname, ho⟩ := hk f.name hm
      have hfind := find?_of_mem hd hf
      have hgf : g = f := by
        rw [← hname, find?_of_mem hd hg] at hfind
        exact Option.some.inj hfind
      exact hgf ▸ ho
    · rw [if_neg hm] at hv
      exact habsent f hf hv

theorem normalizeEntries_without (follow : String → Json → Json) (fields : List Field) (policy : Policy)
    (keys : List String) (entries : List (String × Json)) :
      normalizeEntries follow fields policy (entries.filter fun e => e.1 ∉ keys) =
        (normalizeEntries follow fields policy entries).filter fun e => e.1 ∉ keys := by
  unfold normalizeEntries
  rw [List.filterMap_filter, List.filter_filterMap]
  -- An entry that is left has the key that it had, so that it is all one when the keys are taken out.
  refine List.filterMap_congr fun e _ => ?_
  obtain ⟨k, x⟩ := e
  dsimp only
  cases normalizeField follow fields k x with
  | some y => by_cases hm : k ∈ keys <;> simp [Option.filter, hm]
  | none => by_cases hp : policy = .strip <;> by_cases hm : k ∈ keys <;> simp [Option.filter, hm, hp]

/-- **What an object allows it allows without optional keys too.** -/
theorem allows_without {keys : List String} {x : Json} (hd : (fields.map (·.name)).Nodup)
    (hk : ∀ k ∈ keys, ∃ f ∈ fields, f.name = k ∧ f.optional = true)
    (h : (object fields policy).allows allow x = true) :
      (object fields policy).allows allow (x.without keys) = true := by
  cases x with
  | object entries =>
    rw [allows, Bool.and_eq_true, Bool.or_eq_true] at h
    rw [Json.without, allows, Bool.and_eq_true, Bool.or_eq_true]
    refine ⟨allowsFields_without hd hk h.1, h.2.imp_right fun hall => List.all_eq_true.2 fun e he => ?_⟩
    exact List.all_eq_true.1 hall e (List.mem_of_mem_filter he)
  | _ => cases h

/-- **The normal form of an object without some keys is that of the object, without these keys.** -/
theorem normalize_without (follow : String → Json → Json) (fields : List Field) (policy : Policy)
    (keys : List String) (x : Json) : (object fields policy).normalize follow (x.without keys) =
      ((object fields policy).normalize follow x).without keys := by
  cases x with
  | object entries =>
    rw [Json.without, normalize_object, normalize_object, Json.without, normalizeEntries_without]
  | _ => simp [Json.without, normalize]

/-- **With a value exchanged, an object that had no violation has those of the field**, below its key. -/
theorem violations_replace {f : Field} {x y : Json} (hd : (fields.map (·.name)).Nodup) (hf : f ∈ fields)
    (hx : (x.step? (.key f.name)).isSome) (h : (object fields policy).violations allow follow x = []) :
      (object fields policy).violations allow follow (x.replace [.key f.name] y) =
        (f.node.violations allow follow y).map (·.under (.key f.name)) := by
  cases x with
  | object entries =>
    rw [violations, List.append_eq_nil_iff] at h
    obtain ⟨hfields, hextra⟩ := h
    -- Keys stay as they are, so that none is undeclared that was not.
    have hnone : (if policy = .reject then extraViolations fields
        (entries.map fun e => (e.1, if e.1 = f.name then y else e.2)) else []) = [] := by
      split
      · rename_i hp
        rw [if_pos hp, extraViolations_eq_nil, List.all_eq_true] at hextra
        rw [extraViolations_eq_nil, List.all_map, List.all_eq_true]
        exact hextra
      · rfl
    obtain ⟨z, hz⟩ := Option.isSome_iff_exists.1 hx
    have hz : entries.lookup f.name = some z := hz
    show (object fields policy).violations allow follow
      (.object (entries.map fun e => (e.1, if e.1 = f.name then y else e.2))) = _
    rw [violations, hnone, List.append_nil]
    have hl := fun k => Json.lookup_alter f.name (fun _ => y) k entries
    refine violationsFields_of_exchange hd hf hfields ((hl f.name).trans ?_) fun k hk => (hl k).trans ?_
    · simp [hz]
    · simp [hk]
  | _ => cases hx

/-- A tree stands in another one: as the whole of it, or as the tree of a field, an item or a place there. -/
inductive StandsIn (root : Tree) : Tree → Prop
  | root : StandsIn root root
  | field {fields : List Field} {policy : Policy} {f : Field} :
    StandsIn root (object fields policy) → f ∈ fields → StandsIn root f.node
  | item {t : Tree} : StandsIn root (array t) → StandsIn root t
  | place {ts : List Tree} {t : Tree} : StandsIn root (tuple ts) → t ∈ ts → StandsIn root t

/-- No object inside a tree without fields of one name has such fields. -/
theorem StandsIn.distinctFields {root t : Tree} (h : StandsIn root t) (hr : root.distinctFields = true) :
    t.distinctFields = true := by
  induction h with
  | root => exact hr
  | field _ hf ih => exact (distinctFields_object.1 ih).2 _ hf
  | item _ ih => exact ih
  | place _ ht ih => exact distinctFields_tuple.1 ih _ ht

end Tree

/-- Where a tree is checked: the definitions that its references follow, the limit on how many of them may be nested, and
how many are left from here on. -/
structure Setting where
  definitions : Definitions
  limit : Nat
  budget : Nat

namespace Setting

variable (s : Setting)

def allows (t : Tree) (x : Json) : Bool := t.allows (s.definitions.allows s.budget) x

def violations (t : Tree) (x : Json) : List Violation :=
  t.violations (s.definitions.allows s.budget) (s.definitions.violations s.limit s.budget) x

def normalize (t : Tree) (x : Json) : Json := t.normalize (s.definitions.normalize s.budget) x

theorem violations_eq_nil_iff {t : Tree} {x : Json} : s.violations t x = [] ↔ s.allows t x = true :=
  t.violations_eq_nil_iff (s.definitions.violations_eq_nil_iff s.limit s.budget) x

end Setting

namespace Validator

/-- The tree stands in the root of the validator or in a definition of its scope. -/
def Holds (v : Validator) (t : Tree) : Prop :=
  v.root.StandsIn t ∨ ∃ name u, v.scope.lookup name = some u ∧ u.StandsIn t

theorem Compiled.distinctFields_of_holds {v : Validator} (hv : v.Compiled) {t : Tree} (ht : v.Holds t) :
    t.distinctFields = true := by
  obtain ⟨hroot, hscope⟩ := hv.distinctFields
  rcases ht with ht | ⟨name, u, hu, ht⟩
  · exact ht.distinctFields hroot
  · exact ht.distinctFields (hscope name u hu)

/-- **The law of optional fields**, for every object of a compiled tree and in every setting.  What the object allows it
also allows without optional keys, and the normal form is then without these keys.  With a value at a declared key that
the field does not allow, it finds the violations of the field by this value, below the key, and no others. -/
theorem optional_field_law {v : Validator} (hv : v.Compiled) {fields : List Field} {policy : Policy}
    (ho : v.Holds (.object fields policy)) (s : Setting) {x : Json} (hx : s.allows (.object fields policy) x = true) :
    (∀ keys : List String, (∀ k ∈ keys, ∃ f ∈ fields, f.name = k ∧ f.optional = true) →
      s.allows (.object fields policy) (x.without keys) = true ∧
      s.violations (.object fields policy) (x.without keys) = [] ∧
      s.normalize (.object fields policy) (x.without keys) =
        (s.normalize (.object fields policy) x).without keys) ∧
    ∀ f ∈ fields, (x.step? (.key f.name)).isSome → ∀ y, s.allows f.node y = false →
      s.allows (.object fields policy) (x.replace [.key f.name] y) = false ∧
      s.violations f.node y ≠ [] ∧
      s.violations (.object fields policy) (x.replace [.key f.name] y) =
        (s.violations f.node y).map (·.under (.key f.name)) := by
  obtain ⟨hd, -⟩ := Tree.distinctFields_object.1 (hv.distinctFields_of_holds ho)
  refine ⟨fun keys hk => ?_, fun f hf hkey y hy => ?_⟩
  · have hallows : s.allows (.object fields policy) (x.without keys) = true := Tree.allows_without hd hk hx
    exact ⟨hallows, s.violations_eq_nil_iff.2 hallows, Tree.normalize_without _ fields policy keys x⟩
  · have hne : s.violations f.node y ≠ [] := by
      rw [Ne, s.violations_eq_nil_iff, hy]
      exact Bool.false_ne_true
    have hfound : s.violations (.object fields policy) (x.replace [.key f.name] y) =
        (s.violations f.node y).map (·.under (.key f.name)) :=
      Tree.violations_replace hd hf hkey (s.violations_eq_nil_iff.2 hx)
    refine ⟨?_, hne, hfound⟩
    rw [← Bool.not_eq_true, ← s.violations_eq_nil_iff, hfound, List.map_eq_nil_iff]
    exact hne

/-- An order after another one, with keys in another order than they are declared. -/
def lateOrder : Json :=
  .object [("after", .object [("id", .number (.integer 71 (by decide)))]), ("id", .number (.integer 72 (by decide))),
    ("size", .array [.number (.integer 30 (by decide)), .number (.integer 40 (by decide))])]

/-- The setting in which an order is checked that is no reference itself. -/
def orderSetting : Setting := ⟨[("Order", orderTree)], 1, 1⟩

/-- Without the order before it a late order is its own normal form, and of a bad size its size alone is said. -/
theorem optional_field_law_lateOrder : orderValidator.Compiled ∧ orderValidator.Holds orderTree ∧
    orderSetting.allows orderTree lateOrder = true ∧
    orderSetting.normalize orderTree (lateOrder.without ["after"]) =
      .object [("id", .number (.integer 72 (by decide))),
        ("size", .array [.number (.integer 30 (by decide)), .number (.integer 40 (by decide))])] ∧
    orderSetting.violations orderTree (lateOrder.replace [.key "size"] (.array [.null])) =
      [⟨[.key "size"], .typeMismatch, "tuple of length 2", "array of length 1"⟩] := by
  have hholds : orderValidator.Holds orderTree := Or.inl .root
  have hallows : orderSetting.allows orderTree lateOrder = true := by decide +kernel
  obtain ⟨hwithout, hreplace⟩ := optional_field_law compiled_orderValidator hholds orderSetting hallows
  refine ⟨compiled_orderValidator, hholds, hallows, ?_, ?_⟩
  · obtain ⟨-, -, hn⟩ := hwithout ["after"] (List.forall_mem_singleton.2
      ⟨⟨"after", true, .leaf (.reference "Order")⟩, by simp, rfl, rfl⟩)
    exact hn.trans rfl
  · obtain ⟨-, -, hf⟩ := hreplace ⟨"size", true, .leaf (.tuple [.kind .number, .kind .number])⟩ (by simp) rfl
      (.array [.null]) rfl
    exact hf.trans rfl

end Validator

end Assay
