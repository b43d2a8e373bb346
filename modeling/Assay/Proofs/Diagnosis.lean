import Assay.Proofs.Fields
import Assay.Proofs.Parts
import Assay.Proofs.Places
/-!
# The diagnosis part by part

A check of a value by a tree finds at most one violation at the value itself (`Tree.mismatch`); where it finds none it
goes on to the parts of the value, each under its own step (`Tree.parts`).  An optional leaf and a reference hand the
value on as it is.  So the diagnosis of a validator follows five rules (`Tree.Diagnosis`, `Validator.diagnosis`), and
what is true of all its violations is proved by induction on them.
-/
namespace Assay

/-- The violation as seen from a value in which `p` leads to the one that was checked. -/
def Violation.below (p : Path) (e : Violation) : Violation := { e with path := p ++ e.path }

theorem Violation.below_under (p : Path) (s : Segment) (e : Violation) : (e.under s).below p = e.below (p.push s) := by
  simp [below, under, Path.push]

theorem Violation.below_below (p q : Path) (e : Violation) : (e.below q).below p = e.below (p ++ q) := by
  simp [below]

theorem Violation.below_of_path {e : Violation} (h : e.path = []) (p : Path) : e.below p = { e with path := p } := by
  simp [below, h]

/-- The number of items, if the value is an array. -/
def Json.length? : Json → Option Nat
  | .array items => some items.length
  | _ => none

theorem Json.length?_eq_some_iff {x : Json} {n : Nat} :
    x.length? = some n ↔ ∃ items, x = .array items ∧ items.length = n := by
  cases x <;> simp [length?]

namespace Tree

/-- What a check looks at under one step of a value. -/
inductive Part
  /-- The value there, by the tree that checks it. -/
  | checked (t : Tree) (v : Json)
  /-- A field that is required and not there, by its tree. -/
  | missing (t : Tree)
  /-- A value at a key that is not declared. -/
  | extra (v : Json)

/-- The violations of a part, where `check` diagnoses values by trees. -/
def Part.violations (check : Tree → Json → List Violation) : Part → List Violation
  | checked t v => check t v
  | missing t => [⟨[], .missingRequiredField, t.expected, "missing"⟩]
  | extra v => [.ofValue .extraField "absent (undeclared key)" v]

/-- The violations of a part, under its step. -/
def Part.found (check : Tree → Json → List Violation) (e : Segment × Part) : List Violation :=
  (e.2.violations check).map (·.under e.1)

/-- What an object's field looks at, unless it is optional and not there. -/
def part? (entries : List (String × Json)) (f : Field) : Option (Segment × Part) :=
  match entries.lookup f.name with
  | some v => some (.key f.name, .checked f.node v)
  | none => if f.optional then none else some (.key f.name, .missing f.node)

def extraParts (fields : List Field) (entries : List (String × Json)) : List (Segment × Part) :=
  (entries.filter fun e => !declares fields e.1).map fun (k, v) => (.key k, .extra v)

def itemParts (ts : List Tree) (items : List Json) (i : Nat) : List (Segment × Part) :=
  ((ts.zip items).zipIdx i).map fun ((t, v), i) => (.index i, .checked t v)

/-- The trees of the items of an array of some length, if the length is right. -/
def places? : Tree → Nat → Option (List Tree)
  | leaf (.array c), length => some (.replicate length (leaf c))
  | leaf (.tuple cs), length => if length = cs.length then some (cs.map leaf) else none
  | array t, length => some (.replicate length t)
  | tuple ts, length => if length = ts.length then some ts else none
  | _, _ => none

/-- **The parts of a value that a tree goes on to**, in the order in which they are checked. -/
def parts (t : Tree) : Json → List (Segment × Part)
  | .array items => match t.places? items.length with
    | some ts => itemParts ts items 0
    | none => []
  | .object entries => match t with
    | object fields policy =>
      fields.filterMap (part? entries) ++ (if policy = .reject then extraParts fields entries else [])
    | _ => []
  | _ => []

/-- The violation at the value itself, if there is one. -/
def mismatch (allow : String → Json → Bool) (t : Tree) (v : Json) : List Violation :=
  match t with
  | leaf (.array c) => if v.length?.isSome then [] else [.ofValue .typeMismatch c.array.render v]
  | leaf (.tuple cs) => if v.length? = some cs.length then [] else [tupleMismatch cs.length v]
  | leaf c => c.refusal allow v
  | object _ _ => match v with
    | .object _ => []
    | _ => [.ofValue .typeMismatch "object" v]
  | array _ => if v.length?.isSome then [] else [.ofValue .typeMismatch "array" v]
  | tuple ts => if v.length? = some ts.length then [] else [tupleMismatch ts.length v]

/-- Whether the tree hands the value on to another tree as it is. -/
def handsOn : Tree → Bool
  | leaf (.optional _) => true
  | leaf (.reference _) => true
  | _ => false

theorem handsOn_cases {t : Tree} (h : t.handsOn = true) :
    (∃ c, t = leaf (.optional c)) ∨ ∃ name, t = leaf (.reference name) := by
  cases t with
  | leaf c =>
    cases c with
    | optional c => exact Or.inl ⟨c, rfl⟩
    | reference name => exact Or.inr ⟨name, rfl⟩
    | _ => cases h
  | _ => cases h

section Equations

variable {allow : String → Json → Bool} {follow : String → Json → List Violation}

theorem itemViolations_eq_parts (t : Tree) : ∀ (i : Nat) (items : List Json),
    itemViolations (t.violations allow follow) i items =
      (itemParts (.replicate items.length t) items i).flatMap (Part.found (violations allow follow))
  | _, [] => rfl
  | i, v :: items => by
    rw [itemViolations, itemViolations_eq_parts t (i + 1) items]
    rfl

theorem violationsEach_eq_parts : ∀ (i : Nat) (ts : List Tree) (items : List Json),
    violationsEach allow follow i ts items = (itemParts ts items i).flatMap (Part.found (violations allow follow))
  | _, [], _ => by simp [violationsEach, itemParts]
  | _, _ :: _, [] => by simp [violationsEach, itemParts]
  | i, t :: ts, v :: items => by
    rw [violationsEach, violationsEach_eq_parts (i + 1) ts items]
    rfl

theorem violationsEach_map_leaf : ∀ (i : Nat) (cs : List Constraint) (items : List Json),
    violationsEach allow follow i (cs.map leaf) items = Constraint.violationsEach allow follow i cs items
  | _, [], _ => by simp [violationsEach, Constraint.violationsEach]
  | _, _ :: _, [] => by simp [violationsEach, Constraint.violationsEach]
  | i, c :: cs, v :: items => by
    rw [List.map_cons, violationsEach, Constraint.violationsEach, violations, violationsEach_map_leaf (i + 1) cs items]

theorem violationsFields_eq_parts (fields : List Field) (entries : List (String × Json)) :
    violationsFields allow follow fields entries =
      (fields.filterMap (part? entries)).flatMap (Part.found (violations allow follow)) := by
  induction fields with
  | nil => simp [violationsFields]
  | cons f fields ih =>
    obtain ⟨name, optional, t⟩ := f
    rw [violationsFields, ih, List.filterMap_cons, part?]
    cases entries.lookup name with
    | some v => rfl
    | none => cases optional <;> rfl

theorem extraViolations_eq_parts (check : Tree → Json → List Violation) (fields : List Field)
    (entries : List (String × Json)) :
      extraViolations fields entries = (extraParts fields entries).flatMap (Part.found check) := by
  unfold extraViolations extraParts
  rw [List.flatMap_map]
  exact List.map_eq_flatMap

/-- **A tree that does not hand the value on finds the mismatch with it, and what there is in its parts.** -/
theorem violations_eq_parts {t : Tree} (ht : t.handsOn = false) (v : Json) :
    t.violations allow follow v = t.mismatch allow v ++ (t.parts v).flatMap (Part.found (violations allow follow)) := by
  cases t with
  | leaf c =>
    rw [violations]
    cases c with
    | optional c => cases ht
    | reference name => cases ht
    | array c =>
      cases v with
      | array items =>
        rw [Constraint.violations]
        exact itemViolations_eq_parts (leaf c) 0 items
      | _ => simp [Constraint.violations, mismatch, Json.length?, parts]
    | tuple cs =>
      cases v with
      | array items =>
        rw [Constraint.violations, ← violationsEach_map_leaf, violationsEach_eq_parts]
        by_cases hl : items.length = cs.length <;> simp [mismatch, Json.length?, parts, places?, hl]
      | _ => simp [Constraint.violations, mismatch, Json.length?, parts]
    | _ => cases v <;> simp [Constraint.violations, mismatch, parts, places?]
  | object fields policy =>
    cases v with
    | object entries =>
      rw [violations, violationsFields_eq_parts, extraViolations_eq_parts (violations allow follow)]
      by_cases hp : policy = .reject <;> simp [mismatch, parts, hp]
    | _ => simp [violations, mismatch, parts, places?]
  | array t =>
    cases v with
    | array items =>
      rw [violations]
      exact itemViolations_eq_parts t 0 items
    | _ => simp [violations, mismatch, Json.length?, parts]
  | tuple ts =>
    cases v with
    | array items =>
      rw [violations, violationsEach_eq_parts]
      by_cases hl : items.length = ts.length <;> simp [mismatch, Json.length?, parts, places?, hl]
    | _ => simp [violations, mismatch, Json.length?, parts]

end Equations

/-- The length of the arrays that a tuple allows. -/
def tupleLength? : Tree → Option Nat
  | leaf (.tuple cs) => some cs.length
  | tuple ts => some ts.length
  | _ => none

def rule : Tree → Rule
  | leaf c => c.rule
  | _ => .typeMismatch

/-- What a mismatch of a value with a tree is: one with a tuple's length, or one with the whole tree. -/
inductive Mismatch (t : Tree) (x : Json) : Violation → Prop
  | tuple {length : Nat} : t.tupleLength? = some length → x.length? ≠ some length →
    Mismatch t x (tupleMismatch length x)
  | whole : t.tupleLength? = none → Mismatch t x (.ofValue t.rule t.expected x)

theorem Mismatch.path {t : Tree} {x : Json} {e : Violation} (h : Mismatch t x e) : e.path = [] := by
  cases h <;> rfl

/-- No mismatch is of a reference that is too deep. -/
theorem Mismatch.rule_ne {t : Tree} {x : Json} {e : Violation} (h : Mismatch t x e) : e.rule ≠ .depthExceeded := by
  cases h with
  | tuple _ _ => exact nofun
  | whole _ =>
    cases t with
    | leaf c => cases c <;> exact nofun
    | _ => exact nofun

/-- **Where there is a mismatch it is the only one, and no part is looked at.** -/
theorem mismatch_cases (allow : String → Json → Bool) (t : Tree) (x : Json) :
    t.mismatch allow x = [] ∨ t.parts x = [] ∧ ∃ e, t.mismatch allow x = [e] ∧ Mismatch t x e := by
  have hone : ∀ {p : Prop} [Decidable p] {e : Violation}, (¬ p → t.parts x = [] ∧ Mismatch t x e) →
      (if p then [] else [e]) = [] ∨ t.parts x = [] ∧ ∃ e', (if p then [] else [e]) = [e'] ∧ Mismatch t x e' := by
    intro p _ e h
    by_cases hp : p
    · exact Or.inl (if_pos hp)
    · exact Or.inr ⟨(h hp).1, e, if_neg hp, (h hp).2⟩
  cases t with
  | leaf c =>
    cases c with
    | array c => exact hone fun hp => ⟨by cases x <;> first | rfl | exact absurd rfl hp, .whole rfl⟩
    | tuple cs =>
      refine hone fun hp => ⟨?_, .tuple rfl hp⟩
      cases x with
      | array items =>
        have hl : items.length ≠ cs.length := fun he => hp (congrArg some he)
        simp [parts, places?, hl]
      | _ => rfl
    | _ => exact hone fun _ => ⟨by cases x <;> rfl, .whole rfl⟩
  | object fields policy =>
    cases x with
    | object entries => exact Or.inl rfl
    | _ => exact Or.inr ⟨rfl, _, rfl, .whole rfl⟩
  | array t => exact hone fun hp => ⟨by cases x <;> first | rfl | exact absurd rfl hp, .whole rfl⟩
  | tuple ts =>
    refine hone fun hp => ⟨?_, .tuple rfl hp⟩
    cases x with
    | array items =>
      have hl : items.length ≠ ts.length := fun he => hp (congrArg some he)
      simp [parts, places?, hl]
    | _ => rfl

theorem mismatch_of_mem {allow : String → Json → Bool} {t : Tree} {x : Json} {e : Violation}
    (h : e ∈ t.mismatch allow x) : Mismatch t x e := by
  rcases mismatch_cases allow t x with hn | ⟨-, e', he, hm⟩
  · rw [hn] at h; cases h
  · rw [he] at h
    rw [List.mem_singleton.1 h]
    exact hm

/-- What the parts of a value are, case by case. -/
inductive HasPart : Tree → Json → Segment → Part → Prop
  | item {t u : Tree} {ts : List Tree} {items : List Json} {i : Nat} {v : Json} :
    t.places? items.length = some ts → ts[i]? = some u → items[i]? = some v →
      HasPart t (.array items) (.index i) (.checked u v)
  | field {fields : List Field} {policy : Policy} {entries : List (String × Json)} {f : Field} {v : Json} :
    f ∈ fields → entries.lookup f.name = some v →
      HasPart (object fields policy) (.object entries) (.key f.name) (.checked f.node v)
  | missing {fields : List Field} {policy : Policy} {entries : List (String × Json)} {f : Field} :
    f ∈ fields → f.optional = false → entries.lookup f.name = none →
      HasPart (object fields policy) (.object entries) (.key f.name) (.missing f.node)
  | extra {fields : List Field} {entries : List (String × Json)} {k : String} {v : Json} :
    declares fields k = false → (k, v) ∈ entries →
      HasPart (object fields .reject) (.object entries) (.key k) (.extra v)

theorem getElem?_itemParts (ts : List Tree) (items : List Json) (i : Nat) :
    (itemParts ts items 0)[i]? = ts[i]?.bind fun t => items[i]?.map fun v => (.index i, .checked t v) := by
  unfold itemParts
  rw [List.getElem?_map, List.getElem?_zipIdx, List.zip, List.getElem?_zipWith]
  cases ts[i]? <;> cases items[i]? <;> simp

theorem mem_itemParts {ts : List Tree} {items : List Json} {s : Segment} {part : Part}
    (h : (s, part) ∈ itemParts ts items 0) :
      ∃ i t v, ts[i]? = some t ∧ items[i]? = some v ∧ s = .index i ∧ part = .checked t v := by
  obtain ⟨i, hi⟩ := List.getElem?_of_mem h
  rw [getElem?_itemParts, Option.bind_eq_some_iff] at hi
  obtain ⟨t, ht, hi⟩ := hi
  obtain ⟨v, hv, he⟩ := Option.map_eq_some_iff.1 hi
  cases he
  exact ⟨i, t, v, ht, hv, rfl, rfl⟩

/-- What a field looks at is under its name: the value there, or that there is none. -/
theorem part?_cases {entries : List (String × Json)} {f : Field} {e : Segment × Part} (h : part? entries f = some e) :
    (∃ v, entries.lookup f.name = some v ∧ e = (.key f.name, .checked f.node v)) ∨
      (entries.lookup f.name = none ∧ f.optional = false ∧ e = (.key f.name, .missing f.node)) := by
  unfold part? at h
  cases hl : entries.lookup f.name with
  | some v =>
    rw [hl] at h
    exact Or.inl ⟨v, rfl, (Option.some.inj h).symm⟩
  | none =>
    rw [hl] at h
    obtain ⟨ho, he⟩ := Option.ite_none_left_eq_some.1 h
    exact Or.inr ⟨rfl, by simpa using ho, (Option.some.inj he).symm⟩

theorem hasPart_of_mem {t : Tree} {x : Json} {s : Segment} {part : Part} (h : (s, part) ∈ t.parts x) :
    HasPart t x s part := by
  cases x with
  | array items =>
    rw [parts] at h
    cases ht : t.places? items.length with
    | none => rw [ht] at h; cases h
    | some ts =>
      rw [ht] at h
      obtain ⟨i, u, v, hu, hv, rfl, rfl⟩ := mem_itemParts h
      exact .item ht hu hv
  | object entries =>
    cases t with
    | object fields policy =>
      rw [parts] at h
      rcases List.mem_append.1 h with h | h
      · obtain ⟨f, hf, hp⟩ := List.mem_filterMap.1 h
        rcases part?_cases hp with ⟨v, hl, he⟩ | ⟨hl, ho, he⟩
        · cases he
          exact .field hf hl
        · cases he
          exact .missing hf ho hl
      · split at h
        · rename_i hp
          obtain ⟨⟨k, v⟩, hm, he⟩ := List.mem_map.1 h
          obtain ⟨hm, hk⟩ := List.mem_filter.1 hm
          cases he
          cases hp
          exact .extra (by simpa using hk) hm
        · cases h
    | _ => cases h
  | _ => cases h

/-- How a tree checks the items of an array: a leaf by the constraints in it, an array or a tuple by the trees in it. -/
theorem places?_cases {t u : Tree} {ts : List Tree} {n i : Nat} (ht : t.places? n = some ts) (hu : ts[i]? = some u) :
    (∃ c, t = leaf (.array c) ∧ u = leaf c) ∨
    (∃ cs c, t = leaf (.tuple cs) ∧ cs[i]? = some c ∧ u = leaf c) ∨
    t = array u ∨ t = tuple ts := by
  cases t with
  | leaf c =>
    cases c with
    | array c =>
      cases ht
      exact Or.inl ⟨c, rfl, List.eq_of_mem_replicate (List.mem_of_getElem? hu)⟩
    | tuple cs =>
      rw [places?, Option.ite_none_right_eq_some] at ht
      obtain ⟨-, ht⟩ := ht
      cases ht
      rw [List.getElem?_map] at hu
      obtain ⟨c, hc, rfl⟩ := Option.map_eq_some_iff.1 hu
      exact Or.inr (Or.inl ⟨cs, c, rfl, hc, rfl⟩)
    | _ => cases ht
  | object fields policy => cases ht
  | array t =>
    cases ht
    exact Or.inr (Or.inr (Or.inl (congrArg array (List.eq_of_mem_replicate (List.mem_of_getElem? hu)).symm)))
  | tuple ts' =>
    rw [places?, Option.ite_none_right_eq_some] at ht
    obtain ⟨-, ht⟩ := ht
    cases ht
    exact Or.inr (Or.inr (Or.inr rfl))

theorem sizeOf_lt_of_hasPart {t u : Tree} {x v : Json} {s : Segment} (h : HasPart t x s (.checked u v)) :
    sizeOf u < sizeOf t := by
  cases h with
  | item ht hu _ =>
    have hm := List.mem_of_getElem? hu
    rcases places?_cases ht hu with ⟨c, rfl, rfl⟩ | ⟨cs, c, rfl, hc, rfl⟩ | rfl | rfl
    · simp
    · have := List.sizeOf_lt_of_mem (List.mem_of_getElem? hc)
      simp only [leaf.sizeOf_spec, Constraint.tuple.sizeOf_spec]
      omega
    · simp
    · have := List.sizeOf_lt_of_mem hm
      simp only [tuple.sizeOf_spec]
      omega
  | @field fields policy _ f _ hf _ =>
    have := List.sizeOf_lt_of_mem hf
    obtain ⟨name, optional, node⟩ := f
    simp only [Field.mk.sizeOf_spec] at this
    simp only [object.sizeOf_spec]
    omega

section Descent

variable {defs : Definitions} {root t u : Tree} {p : Path}

/-- No tree that checks a part of a value has two fields of one name, if the root and the definitions have not. -/
theorem Checks.distinctFields (hr : root.distinctFields = true) (hd : defs.DistinctFields)
    (h : Checks defs root p t) : t.distinctFields = true := by
  induction h with
  | root => exact hr
  | field _ hf ih => exact (distinctFields_object.1 ih).2 _ (List.mem_of_find?_eq_some hf)
  | item _ _ ih => exact ih
  | place _ ht ih => exact distinctFields_tuple.1 ih _ (List.mem_of_getElem? ht)
  | leafItem _ _ _ => rfl
  | leafPlace _ _ _ => rfl
  | inner _ _ => rfl
  | definition _ hl _ => exact hd _ _ hl

/-- What checks a value hands its parts on to what checks them. -/
theorem Checks.part {x v : Json} {s : Segment} (h : Checks defs root p t) (ht : t.distinctFields = true)
    (hp : HasPart t x s (.checked u v)) : Checks defs root (p.push s) u := by
  cases hp with
  | item hts hu _ =>
    rcases places?_cases hts hu with ⟨c, rfl, rfl⟩ | ⟨cs, c, rfl, hc, rfl⟩ | rfl | rfl
    · exact h.leafItem _
    · exact h.leafPlace hc
    · exact h.item _
    · exact h.place hu
  | field hf _ => exact h.field (find?_of_mem (distinctFields_object.1 ht).1 hf)

/-- **A tree that meets a value goes on to meet its parts.** -/
theorem Meets.part {x₀ x v : Json} {s : Segment} (h : Meets defs root x₀ p t x) (ht : t.distinctFields = true)
    (hp : HasPart t x s (.checked u v)) : Meets defs root x₀ (p.push s) u v := by
  cases hp with
  | item hts hu hv =>
    rcases places?_cases hts hu with ⟨c, rfl, rfl⟩ | ⟨cs, c, rfl, hc, rfl⟩ | rfl | rfl
    · exact h.leafItem hv
    · exact h.leafPlace hc hv
    · exact h.item hv
    · exact h.place hu hv
  | field hf hv => exact h.field (find?_of_mem (distinctFields_object.1 ht).1 hf) hv

end Descent

/-- **The rules by which values are diagnosed**, following at most `limit` nested references to `defs`. -/
inductive Diagnosis (defs : Definitions) (limit : Nat) : Tree → (Json → List Violation) → Prop
  | parts {t : Tree} {allow : String → Json → Bool} {check : Tree → Json → List Violation} : t.handsOn = false →
    (∀ x s u v, HasPart t x s (.checked u v) → Diagnosis defs limit u (check u)) →
      Diagnosis defs limit t fun x => t.mismatch allow x ++ (t.parts x).flatMap (Part.found check)
  | optional {c : Constraint} {check : Json → List Violation} :
    Diagnosis defs limit (leaf c) check → Diagnosis defs limit (leaf c.optional) check
  | definition {name : String} {t : Tree} {check : Json → List Violation} : defs.lookup name = some t →
    Diagnosis defs limit t check → Diagnosis defs limit (leaf (.reference name)) check
  | unknown {name : String} : defs.lookup name = none →
    Diagnosis defs limit (leaf (.reference name)) fun x => [Definitions.unknown name x]
  | tooDeep {name : String} {t : Tree} : defs.lookup name = some t →
    Diagnosis defs limit (leaf (.reference name)) fun _ => [Definitions.tooDeep limit name]

/-- If references are diagnosed by the rules, so are trees. -/
theorem diagnosis {defs : Definitions} {limit : Nat} {allow : String → Json → Bool}
    {follow : String → Json → List Violation}
    (hf : ∀ name, Diagnosis defs limit (leaf (.reference name)) (follow name)) (t : Tree) :
      Diagnosis defs limit t (t.violations allow follow) := by
  cases ht : t.handsOn with
  | false =>
    have hd : Diagnosis defs limit t fun x =>
        t.mismatch allow x ++ (t.parts x).flatMap (Part.found (violations allow follow)) :=
      .parts ht fun x s u v hp => diagnosis hf u
    have he : t.violations allow follow = _ := funext (violations_eq_parts ht)
    rw [he]
    exact hd
  | true =>
    rcases handsOn_cases ht with ⟨c, hc⟩ | ⟨name, rfl⟩
    · have hlt : sizeOf (leaf c) < sizeOf t := by rw [hc]; simp
      have hd : Diagnosis defs limit (leaf c) ((leaf c).violations allow follow) := diagnosis hf (leaf c)
      have he : (leaf c.optional).violations allow follow = (leaf c).violations allow follow := by
        funext v
        rw [violations, violations, Constraint.violations]
      rw [hc, he]
      exact hd.optional
    · have he : (leaf (.reference name)).violations allow follow = follow name := by
        funext v
        rw [violations, Constraint.violations]
      rw [he]
      exact hf name
termination_by sizeOf t
decreasing_by
  · exact sizeOf_lt_of_hasPart hp
  · exact hlt

end Tree

/-- Following a reference within a budget keeps to the rules: past the budget it is too deep. -/
theorem Definitions.diagnosis (defs : Definitions) (limit : Nat) : ∀ (budget : Nat) (name : String),
    Tree.Diagnosis defs limit (.leaf (.reference name)) (defs.violations limit budget name)
  | 0, name => by
    cases hl : defs.lookup name with
    | none =>
      have he : defs.violations limit 0 name = fun x => [unknown name x] := by
        funext x
        rw [violations, hl]
      rw [he]
      exact .unknown hl
    | some t =>
      have he : defs.violations limit 0 name = fun _ => [tooDeep limit name] := by
        funext x
        rw [violations, hl]
      rw [he]
      exact .tooDeep hl
  | budget + 1, name => by
    cases hl : defs.lookup name with
    | none =>
      have he : defs.violations limit (budget + 1) name = fun x => [unknown name x] := by
        funext x
        rw [violations, hl]
      rw [he]
      exact .unknown hl
    | some t =>
      have he : defs.violations limit (budget + 1) name =
          t.violations (defs.allows budget) (defs.violations limit budget) := by
        funext x
        rw [violations, hl]
      rw [he]
      exact .definition hl (Tree.diagnosis (defs.diagnosis limit budget) t)

/-- **A validator diagnoses by the rules.** -/
theorem Validator.diagnosis (v : Validator) : Tree.Diagnosis v.scope v.maxDepth v.root v.violations :=
  Tree.diagnosis (v.scope.diagnosis v.maxDepth v.maxDepth) v.root

end Assay
