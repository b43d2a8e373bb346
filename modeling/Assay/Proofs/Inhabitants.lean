import Assay.Proofs.Parts
import Assay.Shape.Accepts
/-!
# The values of shapes

A shape is a set of values once its names are (`Inhabits`).  Acceptance is sound on objects that hold no stray key: a
value of the accepted shape is one of the accepting shape, unless a key that the accepted shape leaves open is one of
the optional fields of the accepting shape (`inhabits_of_accepts`).  With such a key it is not
(`stray_key_breaks_acceptance`).
-/
namespace Assay

namespace Shape

/-- **The values of a shape**, given those of each name.  An object may have keys that its shape does not declare, as far
as `undeclared` admits them. -/
inductive Inhabits (named : String → Json → Prop) (undeclared : String → Prop) : Shape → Json → Prop
  | unknown (x : Json) : Inhabits named undeclared .unknown x
  | string (s : String) : Inhabits named undeclared .string (.string s)
  | number (n : Number) : Inhabits named undeclared .number (.number n)
  | integer {n : Number} : n.isIntegral = true → Inhabits named undeclared .integer (.number n)
  | boolean (b : Bool) : Inhabits named undeclared .boolean (.bool b)
  | null : Inhabits named undeclared .null .null
  | literal {l : Literal} {x : Json} : l.admits x = true → Inhabits named undeclared (.literal l) x
  | union {s : Shape} {ss : List Shape} {x : Json} :
    s ∈ ss → Inhabits named undeclared s x → Inhabits named undeclared (.union ss) x
  | array {s : Shape} {xs : List Json} :
    (∀ x ∈ xs, Inhabits named undeclared s x) → Inhabits named undeclared (.array s) (.array xs)
  | tuple {ss : List Shape} {xs : List Json} : ss.length = xs.length →
    (∀ (i : Nat) (s : Shape) (x : Json), ss[i]? = some s → xs[i]? = some x → Inhabits named undeclared s x) →
      Inhabits named undeclared (.tuple ss) (.array xs)
  | object {fields : List ShapeField} {entries : List (String × Json)}
    (present : ∀ f ∈ fields, ∀ x, entries.lookup f.name = some x → Inhabits named undeclared f.shape x)
    (absent : ∀ f ∈ fields, entries.lookup f.name = none → f.optional = true)
    (rest : ∀ e ∈ entries, (∀ f ∈ fields, f.name ≠ e.1) → undeclared e.1) :
      Inhabits named undeclared (.object fields) (.object entries)
  | named {name : String} {x : Json} : named name x → Inhabits named undeclared (.named name) x

mutual

/-- The names of all optional fields inside a shape. -/
def optionalNames : Shape → List String
  | union ss => optionalNamesAll ss
  | array s => optionalNames s
  | tuple ss => optionalNamesAll ss
  | object fields => optionalNamesFields fields
  | _ => []

def optionalNamesAll : List Shape → List String
  | [] => []
  | s :: ss => optionalNames s ++ optionalNamesAll ss

def optionalNamesFields : List ShapeField → List String
  | [] => []
  | ⟨name, s, optional⟩ :: fields => (if optional then [name] else []) ++ optionalNames s ++ optionalNamesFields fields

end

theorem mem_optionalNamesAll {s : Shape} {k : String} (hk : k ∈ s.optionalNames) : ∀ {ss : List Shape}, s ∈ ss →
    k ∈ optionalNamesAll ss
  | t :: ss, h => by
    rw [optionalNamesAll]
    rcases List.mem_cons.1 h with rfl | h
    · exact List.mem_append_left _ hk
    · exact List.mem_append_right _ (mem_optionalNamesAll hk h)

/-- The optional names of an object are those of its optional fields and of their shapes. -/
theorem mem_optionalNamesFields {f : ShapeField} {k : String}
    (hk : (f.optional = true ∧ k = f.name) ∨ k ∈ f.shape.optionalNames) : ∀ {fields : List ShapeField}, f ∈ fields →
      k ∈ optionalNamesFields fields
  | ⟨name, s, optional⟩ :: fields, h => by
    rw [optionalNamesFields]
    rcases List.mem_cons.1 h with rfl | h
    · refine List.mem_append_left _ ?_
      rcases hk with ⟨ho, rfl⟩ | hk
      · exact List.mem_append_left _ (by rw [if_pos ho]; exact List.mem_singleton_self _)
      · exact List.mem_append_right _ hk
    · exact List.mem_append_right _ (mem_optionalNamesFields hk h)

section Rules

variable {a : Shape} {bs : List Shape}

theorem acceptsAll_iff : ∀ {bs : List Shape}, acceptsAll a bs = true ↔ ∀ b ∈ bs, a.accepts b = true
  | [] => by simp [acceptsAll]
  | b :: bs => by rw [acceptsAll, Bool.and_eq_true, acceptsAll_iff, List.forall_mem_cons]

theorem anyAccepts_iff {b : Shape} : ∀ {as : List Shape}, anyAccepts as b = true ↔ ∃ a ∈ as, a.accepts b = true
  | [] => by simp [anyAccepts]
  | a :: as => by simp [anyAccepts, anyAccepts_iff]

/-- Tuples are accepted place by place. -/
theorem acceptsEach_iff : ∀ {as bs : List Shape}, acceptsEach as bs = true ↔
    as.length = bs.length ∧ ∀ (i : Nat) (a b : Shape), as[i]? = some a → bs[i]? = some b → a.accepts b = true
  | [], [] => by simp [acceptsEach]
  | [], _ :: _ => by simp [acceptsEach]
  | _ :: _, [] => by simp [acceptsEach]
  | a :: as, b :: bs => by
    rw [acceptsEach, Bool.and_eq_true, acceptsEach_iff, forall_places_cons, List.length_cons, List.length_cons,
      Nat.add_right_cancel_iff, and_left_comm]

/-- **A field is met** by the first field of its name, which it accepts and which is there whenever it has to be; without
one it has to be optional. -/
theorem acceptsField_iff : ∀ {f : ShapeField} {others : List ShapeField}, acceptsField f others = true ↔
    match others.find? (·.name == f.name) with
    | some t => f.shape.accepts t.shape = true ∧ (f.optional = true ∨ t.optional = false)
    | none => f.optional = true
  | ⟨_, _, _⟩, [] => by simp [acceptsField]
  | ⟨name, s, optional⟩, ⟨name', s', optional'⟩ :: others => by
    rw [acceptsField, List.find?_cons]
    by_cases h : name' = name
    · simp [h]
    · rw [if_neg h, acceptsField_iff, beq_false_of_ne h]

/-- The two ways in which a field is met: by a field of its name, or by being optional where there is none. -/
theorem acceptsField_cases {f : ShapeField} {others : List ShapeField} (h : acceptsField f others = true) :
    (∃ t ∈ others, t.name = f.name ∧ f.shape.accepts t.shape = true ∧ (f.optional = true ∨ t.optional = false)) ∨
      (∀ t ∈ others, t.name ≠ f.name) ∧ f.optional = true := by
  rw [acceptsField_iff] at h
  split at h
  · rename_i t ht
    have hn := List.find?_some ht
    exact Or.inl ⟨t, List.mem_of_find?_eq_some ht, beq_iff_eq.1 hn, h⟩
  · rename_i ht
    exact Or.inr ⟨fun t hmem hn => List.find?_eq_none.1 ht t hmem (beq_iff_eq.2 hn), h⟩

theorem acceptsFields_iff {others : List ShapeField} : ∀ {fields : List ShapeField},
    acceptsFields fields others = true ↔ ∀ f ∈ fields, acceptsField f others = true
  | [] => by simp [acceptsFields]
  | f :: fields => by rw [acceptsFields, Bool.and_eq_true, acceptsFields_iff, List.forall_mem_cons]

end Rules

/-- Numbers that are equal to an integral double are integral. -/
theorem isIntegral_of_toDouble_beq {n : Number} {x : Double} (hx : x.isIntegral = true) (h : (n.toDouble == x) = true) :
    n.isIntegral = true := by
  cases n with
  | integer n fits => rfl
  | double d =>
    cases x with
    | finite y =>
      have hp : d.signedUnits = y.signedUnits := Option.some.inj (Double.place?_eq_of_beq h)
      have hu : d.units = y.units := by
        unfold FiniteDouble.signedUnits at hp
        split at hp <;> split at hp <;> omega
      rw [Number.isIntegral, FiniteDouble.isIntegral, hu]
      exact hx
    | _ => cases hx

theorem sizeOf_shape_lt {f : ShapeField} {fields : List ShapeField} (h : f ∈ fields) :
    sizeOf f.shape < sizeOf fields := by
  have hlt := List.sizeOf_lt_of_mem h
  cases f
  simp only [ShapeField.mk.sizeOf_spec] at hlt
  dsimp only
  omega

variable {named : String → Json → Prop} {undeclared : String → Prop}

theorem inhabits_of_acceptsLiteral {a : Shape} {l : Literal} (h : a.acceptsLiteral l = true) {x : Json}
    (hx : l.admits x = true) : Inhabits named undeclared a x := by
  unfold acceptsLiteral at h
  split at h
  · exact .literal (by rw [Literal.admits_of_beq h]; exact hx)
  · cases x <;> first | exact .string _ | cases hx
  · cases x <;> first | exact .number _ | cases hx
  · cases x <;> first | exact .boolean _ | cases hx
  · cases x with
    | number n => exact .integer (isIntegral_of_toDouble_beq h hx)
    | _ => cases hx
  · cases h

/-- What one shape accepts of another: where no key that the accepted shape leaves open is an optional field of the
accepting shape, every value of the one is a value of the other. -/
theorem inhabits_of_accepts (a b : Shape) (h : a.accepts b = true) (hu : ∀ k ∈ a.optionalNames, ¬ undeclared k)
    (x : Json) (hx : Inhabits named undeclared b x) : Inhabits named (fun _ => True) a x := by
  rw [accepts.eq_def] at h
  split at h
  · exact .unknown x
  · rename_i bs _
    cases hx with
    | union hb hx =>
      have hlt := List.sizeOf_lt_of_mem hb
      exact inhabits_of_accepts a _ (acceptsAll_iff.1 h _ hb) hu x hx
  · rename_i as _ _
    obtain ⟨s, hs, h⟩ := anyAccepts_iff.1 h
    have hlt := List.sizeOf_lt_of_mem hs
    exact .union hs (inhabits_of_accepts s b h (fun k hk => hu k (mem_optionalNamesAll hk hs)) x hx)
  · cases beq_iff_eq.1 h
    cases hx with
    | named hx => exact .named hx
  · cases hx; exact .string _
  · cases hx; exact .number _
  · cases hx; exact .number _
  · cases hx with
    | integer hn => exact .integer hn
  · cases hx; exact .boolean _
  · cases hx; exact .null
  · rename_i s t
    cases hx with
    | array hx => exact .array fun y hy => inhabits_of_accepts s t h hu y (hx y hy)
  · rename_i s ts
    cases hx with
    | tuple hl hx =>
      refine .array fun y hy => ?_
      obtain ⟨i, hi⟩ := List.mem_iff_getElem?.1 hy
      obtain ⟨t, ht⟩ := exists_getElem? hl.symm hi
      have hmem := List.mem_of_getElem? ht
      have hlt := List.sizeOf_lt_of_mem hmem
      exact inhabits_of_accepts s t (acceptsAll_iff.1 h t hmem) hu y (hx i t y ht hi)
  · rename_i ss ts
    obtain ⟨hlen, h⟩ := acceptsEach_iff.1 h
    cases hx with
    | tuple hl hx =>
      refine .tuple (hlen.trans hl) fun i s y hs hy => ?_
      obtain ⟨t, ht⟩ := exists_getElem? hlen hs
      have hmem := List.mem_of_getElem? hs
      have hlt := List.sizeOf_lt_of_mem hmem
      have hlt' := List.sizeOf_lt_of_mem (List.mem_of_getElem? ht)
      exact inhabits_of_accepts s t (h i s t hs ht) (fun k hk => hu k (mem_optionalNamesAll hk hmem)) y (hx i t y ht hy)
  · rename_i fields others
    cases hx with
    | object present absent rest =>
      refine .object (fun f hf y hy => ?_) (fun f hf hn => ?_) fun _ _ _ => trivial
      · rcases acceptsField_cases (acceptsFields_iff.1 h f hf) with ⟨t, ht, hn, hacc, -⟩ | ⟨hn, ho⟩
        · have hlt := sizeOf_shape_lt hf
          have hlt' := sizeOf_shape_lt ht
          exact inhabits_of_accepts f.shape t.shape hacc (fun k hk => hu k (mem_optionalNamesFields (Or.inr hk) hf)) y
            (present t ht y (hn ▸ hy))
        · -- The accepted object says nothing of this optional field, so a value at its name is a stray key.
          have hstray := rest (f.name, y) (mem_of_lookup hy) hn
          exact absurd hstray (hu f.name (mem_optionalNamesFields (Or.inl ⟨ho, rfl⟩) hf))
      · rcases acceptsField_cases (acceptsFields_iff.1 h f hf) with ⟨t, ht, hname, -, ho⟩ | ⟨-, ho⟩
        · exact ho.resolve_right fun ho => by rw [absent t ht (hname ▸ hn)] at ho; cases ho
        · exact ho
  · rename_i l _ _ _ _
    cases hx with
    | literal hl => exact inhabits_of_acceptsLiteral h hl
  · cases h
termination_by sizeOf a + sizeOf b
decreasing_by
  all_goals
    subst_vars
    simp only [union.sizeOf_spec, array.sizeOf_spec, tuple.sizeOf_spec, object.sizeOf_spec]
    omega

/-- A value that an optional field refuses, at a key of which the accepted object says nothing. -/
theorem stray_key {fields others : List ShapeField} {f : ShapeField} (hf : f ∈ fields)
    (hn : ∀ t ∈ others, t.name ≠ f.name) {y : Json} (hy : ¬ Inhabits named (fun _ => True) f.shape y)
    {entries : List (String × Json)} (hx : Inhabits named (fun _ => True) (.object others) (.object entries)) :
    Inhabits named (fun _ => True) (.object others) (.object ((f.name, y) :: entries)) ∧
      ¬ Inhabits named (fun _ => True) (.object fields) (.object ((f.name, y) :: entries)) := by
  have hl : ∀ t ∈ others, ((f.name, y) :: entries).lookup t.name = entries.lookup t.name := fun t ht => by
    rw [List.lookup_cons, beq_false_of_ne (hn t ht)]
  constructor
  · cases hx with
    | object present absent _ =>
      exact .object (fun t ht x hx => present t ht x (hl t ht ▸ hx)) (fun t ht hx => absent t ht (hl t ht ▸ hx))
        fun _ _ _ => trivial
  · intro h
    cases h with
    | object present _ _ => exact hy (present f hf y (by rw [List.lookup_cons, beq_self_eq_true]))

/-- **Acceptance is sound up to stray keys.**  Every value of the accepted shape in which no undeclared key is the name of
an optional field of the accepting shape is one of its values, and without optional fields every value is.  But an
optional field that the accepted object does not declare lets in every object with a value there that it refuses. -/
theorem accepts_sound_up_to_stray_keys (named : String → Json → Prop) (a b : Shape) (h : a.accepts b = true) :
    (∀ x, Inhabits named (· ∉ a.optionalNames) b x → Inhabits named (fun _ => True) a x) ∧
      (a.optionalNames = [] → ∀ x, Inhabits named (fun _ => True) b x → Inhabits named (fun _ => True) a x) ∧
      ∀ fields others, a = .object fields → b = .object others → ∀ f ∈ fields, (∀ t ∈ others, t.name ≠ f.name) →
        ∀ y, ¬ Inhabits named (fun _ => True) f.shape y → ∀ entries,
          Inhabits named (fun _ => True) b (.object entries) →
            Inhabits named (fun _ => True) b (.object ((f.name, y) :: entries)) ∧
              ¬ Inhabits named (fun _ => True) a (.object ((f.name, y) :: entries)) := by
  refine ⟨fun x hx => inhabits_of_accepts a b h (fun k hk hn => hn hk) x hx, fun ho x hx => ?_, ?_⟩
  · exact inhabits_of_accepts a b h (fun k hk => by rw [ho] at hk; cases hk) x hx
  · rintro fields others rfl rfl f hf hn y hy entries hx
    exact stray_key hf hn hy hx

/-- The shape of a person with an optional text. -/
def person : Shape := .object [⟨"name", .string, false⟩, ⟨"bio", .string, true⟩]

/-- A person accepts an object in which the text is required, and so the value with both. -/
theorem accepts_sound_up_to_stray_keys_person :
    person.accepts (.object [⟨"bio", .string, false⟩, ⟨"name", .string, false⟩]) = true ∧
      Inhabits (fun _ _ => False) (fun _ => True) person
        (.object [("name", .string "Ada"), ("bio", .string ""), ("age", .null)]) := by
  have h : person.accepts (.object [⟨"bio", .string, false⟩, ⟨"name", .string, false⟩]) = true := by
    simp [person, accepts, acceptsFields, acceptsField]
  refine ⟨h, (accepts_sound_up_to_stray_keys (fun _ _ => False) _ _ h).1 _ (.object ?_ ?_ ?_)⟩
  · simp only [List.forall_mem_cons]
    refine ⟨fun x hx => ?_, fun x hx => ?_, by simp⟩ <;> cases hx <;> exact .string _
  · simp [List.lookup_cons]
  · simp [person, optionalNames, optionalNamesFields]

/-- **An object without fields is accepted by one with an optional field, and is not one of its values**, if there is
something else at the name of that field. -/
theorem stray_key_breaks_acceptance :
    (Shape.object [⟨"bio", .string, true⟩]).accepts (.object []) = true ∧
      Inhabits (fun _ _ => False) (fun _ => True) (.object []) (.object [("bio", .null)]) ∧
      ¬ Inhabits (fun _ _ => False) (fun _ => True) (.object [⟨"bio", .string, true⟩]) (.object [("bio", .null)]) := by
  refine ⟨by simp [accepts, acceptsFields, acceptsField], ?_⟩
  refine stray_key (f := ⟨"bio", .string, true⟩) List.mem_cons_self (by simp) ?_ (.object (by simp) (by simp) (by simp))
  intro h
  cases h

end Shape

end Assay
