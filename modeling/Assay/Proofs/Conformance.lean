import Assay.Proofs.Decision
import Assay.Proofs.Fields
import Assay.Proofs.ShapeUnion
import Assay.Proofs.WholeNumbers
import Assay.Shape.Of
/-!
# Valid values conform to the shape of their schema

What a schema allows is a value of its shape, and so is the normal form of it, although an integral union may have cut a
fraction: what takes the place of a double is an integer, and a shape with an integer among its alternatives has all of
them (`Constraint.conforms_integer`).  A name stands for the shape of its definition, unfolded along as many references
as the run may follow (`Definitions.ConformsWithin`).
-/
namespace Assay

/-- Values conform to a tuple place by place. -/
theorem Shape.conforms_tuple_map {α : Type} {shape : α → Shape} {as : List α} {items : List Json}
    {named : String → Json → Prop} (hl : as.length = items.length)
    (h : ∀ (i : Nat) (a : α) (y : Json), as[i]? = some a → items[i]? = some y → (shape a).Conforms named y) :
      (Shape.tuple (as.map shape)).Conforms named (.array items) := by
  refine .tuple (by rw [List.length_map, hl]) fun i s y hs hy => ?_
  rw [List.getElem?_map] at hs
  obtain ⟨a, ha, rfl⟩ := Option.map_eq_some_iff.1 hs
  exact h i a y ha hy

section Leaves

variable {named : String → Json → Prop} {x : Json}

theorem Kind.conforms_shape {k : Kind} (h : k.admits x = true) : k.shape.Conforms named x := by
  cases k with
  | string => cases x <;> first | exact .string _ | cases h
  | number => cases x <;> first | exact .number _ | cases h
  | integer => cases x <;> first | exact .integer h | cases h
  | boolean => cases x <;> first | exact .boolean _ | cases h

/-- What a range admits is of its kind. -/
theorem Kind.admits_of_admitsWithin {k : Kind} {min max : Option Bound} (h : k.admitsWithin min max x = true) :
    k.admits x = true := by
  unfold admitsWithin at h
  split at h
  · rename_i y hy
    unfold measure? at hy
    split at hy
    · rfl
    · rfl
    · exact (Option.ite_none_right_eq_some.1 hy).1
    · cases hy
  · cases h

theorem Literal.conforms_shape {l : Literal} (h : l.admits x = true) : l.shape.Conforms named x := by
  cases l with
  | null => cases x <;> first | exact .null | cases h
  | _ => exact .literal h

theorem Format.exists_of_admitsValue {f : Format} (h : f.admitsValue x = true) : ∃ s, x = .string s := by
  cases x with
  | string s => exact ⟨s, rfl⟩
  | _ => cases h

end Leaves

namespace Constraint

theorem shapeAll_eq_map (cs : List Constraint) : shapeAll cs = cs.map shape := by
  induction cs with
  | nil => rfl
  | cons c cs ih => rw [shapeAll, List.map_cons, ih]

variable {allow : String → Json → Bool} {follow : String → Json → Json} {named : String → Json → Prop}

mutual

/-- **The shape of an integral constraint has all whole numbers.** -/
theorem conforms_integer (a : Number) (ha : a.isIntegral = true) : ∀ (c : Constraint), c.isIntegral = true →
    c.shape.Conforms named (.number a)
  | kind k, h => by
    cases (beq_iff_eq.1 h : k = .integer)
    exact .integer ha
  | range k _ _, h => by
    cases (beq_iff_eq.1 h : k = .integer)
    exact .integer ha
  | union cs, h => by
    rw [isIntegral, Bool.and_eq_true] at h
    rw [shape, Shape.conforms_oneOf_iff, shapeAll_eq_map]
    obtain ⟨c, hc, hn⟩ := exists_conforms_integer a ha cs h.1
    exact ⟨c.shape, List.mem_map_of_mem hc, hn⟩
  | format _, h | literal _, h | array _, h | tuple _, h | optional _, h | reference _, h => by simp [isIntegral] at h

theorem exists_conforms_integer (a : Number) (ha : a.isIntegral = true) : ∀ (cs : List Constraint),
    isIntegralAny cs = true → ∃ c ∈ cs, c.shape.Conforms named (.number a)
  | c :: cs, h => by
    rw [isIntegralAny, Bool.or_eq_true] at h
    rcases h with h | h
    · exact ⟨c, List.mem_cons_self, conforms_integer a ha c h⟩
    · obtain ⟨d, hd, hn⟩ := exists_conforms_integer a ha cs h
      exact ⟨d, List.mem_cons_of_mem _ hd, hn⟩

end

/-- A value conforms also as the integer that an integral constraint makes of it, whether it was whole or not. -/
theorem conforms_ite_asInteger (c : Constraint) {x : Json} (h : c.shape.Conforms named x) :
    c.shape.Conforms named (if c.isIntegral then x.asInteger else x) := by
  split
  · rename_i hi
    rcases x.asInteger_cases with he | ⟨d, fits, -, he⟩
    · rw [he]
      exact h
    · rw [he]
      exact conforms_integer _ rfl c hi
  · exact h

mutual

/-- **What a constraint allows conforms to its shape, and so does its normal form**, as for its references. -/
theorem conforms (hf : ∀ name x, allow name x = true → named name x ∧ named name (follow name x)) :
    ∀ (c : Constraint) (x : Json), c.allows allow x = true →
      c.shape.Conforms named x ∧ c.shape.Conforms named (c.normalize follow x)
  | kind k, x, h => by
    rw [allows] at h
    have hx : (kind k).shape.Conforms named x := Kind.conforms_shape h
    rw [normalize]
    exact ⟨hx, conforms_ite_asInteger _ hx⟩
  | range k min max, x, h => by
    rw [allows] at h
    have hx : (range k min max).shape.Conforms named x := Kind.conforms_shape (Kind.admits_of_admitsWithin h)
    rw [normalize]
    exact ⟨hx, conforms_ite_asInteger _ hx⟩
  | format f, x, h => by
    rw [allows] at h
    obtain ⟨s, rfl⟩ := Format.exists_of_admitsValue h
    rw [normalize]
    exact ⟨.string s, .string s⟩
  | literal l, x, h => by
    rw [allows] at h
    rw [normalize]
    exact ⟨Literal.conforms_shape h, Literal.conforms_shape h⟩
  | union cs, x, h => by
    rw [allows, allowsAny_iff] at h
    obtain ⟨c, hc, h⟩ := h
    have hx : (union cs).shape.Conforms named x := by
      rw [shape, Shape.conforms_oneOf_iff, shapeAll_eq_map]
      exact ⟨c.shape, List.mem_map_of_mem hc, (conforms_of_mem hf cs c hc x h).1⟩
    rw [normalize]
    exact ⟨hx, conforms_ite_asInteger _ hx⟩
  | array c, x, h => by
    cases x with
    | array items =>
      rw [allows, List.all_eq_true] at h
      rw [normalize]
      refine ⟨.array fun y hy => (conforms hf c y (h y hy)).1, .array ?_⟩
      rw [List.forall_mem_map]
      exact fun y hy => (conforms hf c y (h y hy)).2
    | _ => simp [allows] at h
  | tuple cs, x, h => by
    cases x with
    | array items =>
      rw [allows] at h
      obtain ⟨hl, h⟩ := allowsEach_iff.1 h
      have hplace : ∀ (i : Nat) (c : Constraint) (y : Json), cs[i]? = some c → items[i]? = some y →
          c.shape.Conforms named y ∧ c.shape.Conforms named (c.normalize follow y) :=
        fun i c y hc hy => conforms_of_mem hf cs c (List.mem_of_getElem? hc) y (h i c y hc hy)
      rw [normalize, shape, shapeAll_eq_map]
      refine ⟨Shape.conforms_tuple_map hl fun i c y hc hy => (hplace i c y hc hy).1,
        Shape.conforms_tuple_map (hl.trans (length_normalizeEach cs items).symm) fun i c z hc hz => ?_⟩
      obtain ⟨y, hy⟩ := exists_getElem? hl hc
      rw [getElem?_normalizeEach hc hy] at hz
      cases hz
      exact (hplace i c y hc hy).2
    | _ => simp [allows] at h
  | optional c, x, h => by
    rw [allows] at h
    rw [shape, normalize]
    exact conforms hf c x h
  | reference name, x, h => by
    rw [allows] at h
    rw [normalize]
    exact ⟨.named (hf name x h).1, .named (hf name x h).2⟩

theorem conforms_of_mem (hf : ∀ name x, allow name x = true → named name x ∧ named name (follow name x)) :
    ∀ (cs : List Constraint), ∀ c ∈ cs, ∀ (x : Json), c.allows allow x = true →
      c.shape.Conforms named x ∧ c.shape.Conforms named (c.normalize follow x)
  | d :: cs, c, hc => by
    rcases List.mem_cons.1 hc with hc | hc
    · rw [hc]
      exact conforms hf d
    · exact conforms_of_mem hf cs c hc

end

end Constraint

namespace Tree

theorem shapeAll_eq_map (ts : List Tree) : shapeAll ts = ts.map shape := by
  induction ts with
  | nil => rfl
  | cons t ts ih => rw [shapeAll, List.map_cons, ih]

theorem shapeFields_eq_map (fields : List Field) :
    shapeFields fields = fields.map fun f => ⟨f.name, f.node.shape, f.optional⟩ := by
  induction fields with
  | nil => rfl
  | cons f fields ih =>
    obtain ⟨_, _, _⟩ := f
    rw [shapeFields, List.map_cons, ih]

/-- An object conforms when each of its declared fields does, and is there unless it is optional. -/
theorem conforms_object_iff {named : String → Json → Prop} {fields : List Field} {policy : Policy}
    {entries : List (String × Json)} : (object fields policy).shape.Conforms named (.object entries) ↔
      (∀ f ∈ fields, ∀ x, entries.lookup f.name = some x → f.node.shape.Conforms named x) ∧
        ∀ f ∈ fields, entries.lookup f.name = none → f.optional = true := by
  rw [shape, shapeFields_eq_map]
  constructor
  · intro h
    cases h with
    | object present absent _ => exact ⟨List.forall_mem_map.1 present, List.forall_mem_map.1 absent⟩
  · rintro ⟨present, absent⟩
    exact .object (List.forall_mem_map.2 present) (List.forall_mem_map.2 absent) fun _ _ _ => trivial

variable {allow : String → Json → Bool} {follow : String → Json → Json} {named : String → Json → Prop}

mutual

/-- **What a tree allows conforms to its shape, and so does its normal form**, as for its references. -/
theorem conforms (hf : ∀ name x, allow name x = true → named name x ∧ named name (follow name x)) :
    ∀ (t : Tree), t.distinctFields = true → ∀ (x : Json), t.allows allow x = true →
      t.shape.Conforms named x ∧ t.shape.Conforms named (t.normalize follow x)
  | leaf c, _, x, h => by
    rw [allows] at h
    rw [shape, normalize]
    exact c.conforms hf x h
  | object fields policy, hd, x, h => by
    obtain ⟨hnodup, hd⟩ := distinctFields_object.1 hd
    cases x with
    | object entries =>
      rw [allows, Bool.and_eq_true] at h
      obtain ⟨present, absent⟩ := allowsFields_iff.1 h.1
      have hfield : ∀ f ∈ fields, ∀ y, entries.lookup f.name = some y →
          f.node.shape.Conforms named y ∧ f.node.shape.Conforms named (f.node.normalize follow y) :=
        fun f hm y hy => conforms_of_mem_fields hf fields f hm (hd f hm) y (present f hm y hy)
      rw [normalize_object, conforms_object_iff, conforms_object_iff]
      refine ⟨⟨fun f hm y hy => (hfield f hm y hy).1, absent⟩, fun f hm z hz => ?_, fun f hm hz => ?_⟩
      · rw [lookup_normalizeEntries (find?_of_mem hnodup hm)] at hz
        obtain ⟨y, hy, rfl⟩ := Option.map_eq_some_iff.1 hz
        exact (hfield f hm y hy).2
      · rw [lookup_normalizeEntries (find?_of_mem hnodup hm), Option.map_eq_none_iff] at hz
        exact absent f hm hz
    | _ => simp [allows] at h
  | array t, hd, x, h => by
    cases x with
    | array items =>
      rw [allows, List.all_eq_true] at h
      rw [normalize]
      refine ⟨.array fun y hy => (conforms hf t hd y (h y hy)).1, .array ?_⟩
      rw [List.forall_mem_map]
      exact fun y hy => (conforms hf t hd y (h y hy)).2
    | _ => simp [allows] at h
  | tuple ts, hd, x, h => by
    cases x with
    | array items =>
      rw [allows] at h
      obtain ⟨hl, h⟩ := allowsEach_iff.1 h
      have hplace : ∀ (i : Nat) (t : Tree) (y : Json), ts[i]? = some t → items[i]? = some y →
          t.shape.Conforms named y ∧ t.shape.Conforms named (t.normalize follow y) := by
        intro i t y ht hy
        have hm := List.mem_of_getElem? ht
        exact conforms_of_mem hf ts t hm (distinctFields_tuple.1 hd t hm) y (h i t y ht hy)
      rw [normalize, shape, shapeAll_eq_map]
      refine ⟨Shape.conforms_tuple_map hl fun i t y ht hy => (hplace i t y ht hy).1,
        Shape.conforms_tuple_map (hl.trans (length_normalizeEach ts items).symm) fun i t z ht hz => ?_⟩
      obtain ⟨y, hy⟩ := exists_getElem? hl ht
      rw [getElem?_normalizeEach ht hy] at hz
      cases hz
      exact (hplace i t y ht hy).2
    | _ => simp [allows] at h

theorem conforms_of_mem_fields
    (hf : ∀ name x, allow name x = true → named name x ∧ named name (follow name x)) : ∀ (fields : List Field),
      ∀ f ∈ fields, f.node.distinctFields = true → ∀ (x : Json), f.node.allows allow x = true →
        f.node.shape.Conforms named x ∧ f.node.shape.Conforms named (f.node.normalize follow x)
  | ⟨_, _, t⟩ :: fields, f, hm => by
    rcases List.mem_cons.1 hm with hm | hm
    · rw [hm]
      exact conforms hf t
    · exact conforms_of_mem_fields hf fields f hm

theorem conforms_of_mem (hf : ∀ name x, allow name x = true → named name x ∧ named name (follow name x)) :
    ∀ (ts : List Tree), ∀ t ∈ ts, t.distinctFields = true → ∀ (x : Json), t.allows allow x = true →
      t.shape.Conforms named x ∧ t.shape.Conforms named (t.normalize follow x)
  | u :: ts, t, ht => by
    rcases List.mem_cons.1 ht with ht | ht
    · rw [ht]
      exact conforms hf u
    · exact conforms_of_mem hf ts t ht

end

end Tree

namespace Definitions

/-- The value conforms to the shape of the definition of a name, in which names stand for the shapes of their
definitions in turn, unfolded along at most `budget` references. -/
def ConformsWithin (defs : Definitions) : (budget : Nat) → String → Json → Prop
  | 0, _, _ => False
  | budget + 1, name, x => ∃ t, defs.lookup name = some t ∧ t.shape.Conforms (ConformsWithin defs budget) x

/-- **What a reference allows conforms to its name, and so does its normal form**, by induction on the budget. -/
theorem conforms {defs : Definitions} (hd : defs.DistinctFields) : ∀ (budget : Nat) (name : String) (x : Json),
    defs.allows budget name x = true →
      defs.ConformsWithin budget name x ∧ defs.ConformsWithin budget name (defs.normalize budget name x)
  | 0, _, _, h => by cases h
  | budget + 1, name, x, h => by
    rw [allows] at h
    rw [normalize]
    cases ht : defs.lookup name with
    | none =>
      rw [ht] at h
      cases h
    | some t =>
      rw [ht] at h
      obtain ⟨hx, hn⟩ := t.conforms (conforms hd budget) (hd name t ht) x h
      exact ⟨⟨t, ht, hx⟩, ⟨t, ht, hn⟩⟩

end Definitions

namespace Validator

/-- What a validator allows conforms to its shape, and so does what it normalizes. -/
theorem conforms {v : Validator} (hv : v.Compiled) {x : Json} (h : v.allows x = true) :
    v.shape.Conforms (v.scope.ConformsWithin v.maxDepth) x ∧
      v.shape.Conforms (v.scope.ConformsWithin v.maxDepth) (v.normalize x) :=
  v.root.conforms (Definitions.conforms hv.distinctFields.scope v.maxDepth) hv.distinctFields.root x h

/-- **Every valid value conforms to the shape of its validator, and so does its normal form**, where a name stands for
the shape of its definition in the scope, unfolded along as many references as may be nested. -/
theorem valid_values_conform (v : Validator) (hv : v.Compiled) (x : Json) (h : v.allows x = true) :
    v.shape.Conforms (v.scope.ConformsWithin v.maxDepth) x ∧
      ∃ n, v.validate x = .valid n ∧ v.shape.Conforms (v.scope.ConformsWithin v.maxDepth) n := by
  have hvalid : v.validate x = .valid (v.normalize x) :=
    (v.validate_eq_valid_iff x _).2 ⟨(v.violations_eq_nil_iff x).2 h, rfl⟩
  exact ⟨(conforms hv h).1, v.normalize x, hvalid, (conforms hv h).2⟩

/-- A count that may lead on to another one. -/
def counts : Scope where
  definitions := [("Count", .object [⟨"n", .constraint (.union [.kind .integer, .literal .null]), false⟩,
    ⟨"next", .constraint (.reference "Count"), true⟩] none)]

/-- The tree of counts without other keys. -/
def countTree : Tree :=
  .object [⟨"n", false, .leaf (.union [.kind .integer, .literal .null])⟩, ⟨"next", true, .leaf (.reference "Count")⟩]
    .strip

def countValidator : Validator := ⟨countTree, some [("Count", countTree)], 100⟩

theorem counts_compile : counts.compile ⟨.strip, 100⟩ = .ok ⟨[("Count", countTree)], 100⟩ := rfl

theorem compiled_countValidator : countValidator.Compiled := by
  have he : ∀ e ∈ counts.definitions, ∀ u ∈ e.2.embedded, u.Compiled :=
    List.forall_mem_singleton.2 fun _ h => nomatch h
  exact .ofScope he counts_compile (show CompiledScope.validator? _ "Count" = some countValidator from rfl)

/-- Two counts, and a key besides. -/
def twoCounts : Json :=
  .object [("next", .object [("n", .null)]), ("n", .number (.integer 3 (by decide))), ("x", .null)]

/-- Both counts are of their shape, with the key besides and without it. -/
theorem valid_values_conform_twoCounts : countValidator.allows twoCounts = true ∧
    countValidator.shape.Conforms (countValidator.scope.ConformsWithin 100) twoCounts ∧
    countValidator.shape.Conforms (countValidator.scope.ConformsWithin 100)
      (.object [("next", .object [("n", .null)]), ("n", .number (.integer 3 (by decide)))]) := by
  have h : countValidator.allows twoCounts = true := by decide
  obtain ⟨hx, n, hv, hn⟩ := valid_values_conform countValidator compiled_countValidator twoCounts h
  cases hv.symm.trans (show countValidator.validate twoCounts = .valid _ from rfl)
  exact ⟨h, hx, hn⟩

end Validator

end Assay
