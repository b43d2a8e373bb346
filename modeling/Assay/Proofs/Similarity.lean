import Assay.Proofs.Decision
import Assay.Proofs.Matching
import Assay.Proofs.Parts
import Assay.Proofs.Places
import Assay.Shape.Of
/-!
# Trees that differ in policies

Two trees are similar (`Tree.Similar`) when they differ in the policies of their objects, as a relation of policies
allows, and perhaps in that arrays and tuples on one side are spelled inside a leaf on the other.  Whether similar trees
and definitions decide alike, or one allows what the other does, depends on the policies alone
(`Validator.Similar.rel_allows`), and where no policy differs but for one that rejects they make the same of an allowed
value (`Validator.Similar.normalize_eq`).
-/
namespace Assay

/-- A relation of answers that conjunctions and disjunctions respect. -/
structure BoolCongruence (B : Bool → Bool → Prop) : Prop where
  refl (b : Bool) : B b b
  and {a a' b b' : Bool} : B a a' → B b b' → B (a && b) (a' && b')
  or {a a' b b' : Bool} : B a a' → B b b' → B (a || b) (a' || b')

theorem boolCongruence_eq : BoolCongruence (· = ·) where
  refl _ := rfl
  and ha hb := by rw [ha, hb]
  or ha hb := by rw [ha, hb]

/-- What the first allows the second allows. -/
theorem boolCongruence_imp : BoolCongruence fun a b => a = true → b = true where
  refl _ := id
  and ha hb h := by
    rw [Bool.and_eq_true] at h ⊢
    exact ⟨ha h.1, hb h.2⟩
  or ha hb h := by
    rw [Bool.or_eq_true] at h ⊢
    exact h.imp ha hb

theorem BoolCongruence.flip {B : Bool → Bool → Prop} (hB : BoolCongruence B) : BoolCongruence fun a b => B b a where
  refl := hB.refl
  and := hB.and
  or := hB.or

theorem BoolCongruence.all {α : Type} {B : Bool → Bool → Prop} (hB : BoolCongruence B) {p q : α → Bool} :
    ∀ {l : List α}, (∀ a ∈ l, B (p a) (q a)) → B (l.all p) (l.all q)
  | [], _ => hB.refl _
  | a :: l, h => by
    rw [List.all_cons, List.all_cons]
    exact hB.and (h a List.mem_cons_self) (hB.all fun b hb => h b (List.mem_cons_of_mem _ hb))

namespace Constraint

section Allows

variable {B : Bool → Bool → Prop} {follow follow' : String → Json → Bool}

mutual

/-- **A constraint decides by its references**: in related ways if they are decided in related ways. -/
theorem rel_allows (hB : BoolCongruence B) (hf : ∀ name v, B (follow name v) (follow' name v)) :
    ∀ (c : Constraint) (v : Json), B (c.allows follow v) (c.allows follow' v)
  | kind k, v => by rw [allows, allows]; exact hB.refl _
  | range k min max, v => by rw [allows, allows]; exact hB.refl _
  | format f, v => by rw [allows, allows]; exact hB.refl _
  | literal l, v => by rw [allows, allows]; exact hB.refl _
  | union cs, v => by rw [allows, allows]; exact rel_allowsAny hB hf cs v
  | optional c, v => by rw [allows, allows]; exact rel_allows hB hf c v
  | reference name, v => by rw [allows, allows]; exact hf name v
  | array c, v => by
    cases v with
    | array items =>
      rw [allows, allows]
      exact hB.all fun x _ => rel_allows hB hf c x
    | _ =>
      simp only [allows]
      exact hB.refl _
  | tuple cs, v => by
    cases v with
    | array items =>
      rw [allows, allows]
      exact rel_allowsEach hB hf cs items
    | _ =>
      simp only [allows]
      exact hB.refl _

theorem rel_allowsAny (hB : BoolCongruence B) (hf : ∀ name v, B (follow name v) (follow' name v)) :
    ∀ (cs : List Constraint) (v : Json), B (allowsAny follow cs v) (allowsAny follow' cs v)
  | [], v => by rw [allowsAny, allowsAny]; exact hB.refl _
  | c :: cs, v => by
    rw [allowsAny, allowsAny]
    exact hB.or (rel_allows hB hf c v) (rel_allowsAny hB hf cs v)

theorem rel_allowsEach (hB : BoolCongruence B) (hf : ∀ name v, B (follow name v) (follow' name v)) :
    ∀ (cs : List Constraint) (vs : List Json), B (allowsEach follow cs vs) (allowsEach follow' cs vs)
  | [], [] => by rw [allowsEach, allowsEach]; exact hB.refl _
  | [], _ :: _ => by simp only [allowsEach]; exact hB.refl _
  | _ :: _, [] => by simp only [allowsEach]; exact hB.refl _
  | c :: cs, v :: vs => by
    rw [allowsEach, allowsEach]
    exact hB.and (rel_allows hB hf c v) (rel_allowsEach hB hf cs vs)

end

end Allows

section Normalize

variable {allow : String → Json → Bool} {follow follow' : String → Json → Json}

mutual

/-- **Of an allowed value a constraint makes the same**, if its references do of what they allow.  A union looks at none
of them. -/
theorem normalize_eq (hf : ∀ name v, v.distinctKeys = true → allow name v = true → follow name v = follow' name v) :
    ∀ (c : Constraint) (v : Json), v.distinctKeys = true → c.allows allow v = true →
      c.normalize follow v = c.normalize follow' v
  | kind k, v, _, _ => by rw [normalize, normalize]
  | range k min max, v, _, _ => by rw [normalize, normalize]
  | format f, v, _, _ => by rw [normalize, normalize]
  | literal l, v, _, _ => by rw [normalize, normalize]
  | union cs, v, _, _ => by rw [normalize, normalize]
  | optional c, v, hd, h => by
    rw [allows] at h
    rw [normalize, normalize, normalize_eq hf c v hd h]
  | reference name, v, hd, h => by
    rw [allows] at h
    rw [normalize, normalize, hf name v hd h]
  | array c, v, hd, h => by
    cases v with
    | array items =>
      rw [normalize, normalize]
      rw [allows, List.all_eq_true] at h
      have hitems := Json.distinctKeys_array.1 hd
      exact congrArg Json.array (List.map_congr_left fun x hx => normalize_eq hf c x (hitems x hx) (h x hx))
    | _ => simp only [normalize]
  | tuple cs, v, hd, h => by
    cases v with
    | array items =>
      rw [normalize, normalize]
      rw [allows] at h
      exact congrArg Json.array (normalizeEach_eq hf cs items (Json.distinctKeys_array.1 hd) h)
    | _ => simp only [normalize]

theorem normalizeEach_eq
    (hf : ∀ name v, v.distinctKeys = true → allow name v = true → follow name v = follow' name v) :
    ∀ (cs : List Constraint) (vs : List Json), (∀ v ∈ vs, v.distinctKeys = true) → allowsEach allow cs vs = true →
      normalizeEach follow cs vs = normalizeEach follow' cs vs
  | [], _, _, _ => by simp only [normalizeEach]
  | _ :: _, [], _, _ => by simp only [normalizeEach]
  | c :: cs, v :: vs, hd, h => by
    rw [allowsEach, Bool.and_eq_true] at h
    rw [List.forall_mem_cons] at hd
    rw [normalizeEach, normalizeEach, normalize_eq hf c v hd.1 h.1, normalizeEach_eq hf cs vs hd.2 h.2]

end

end Normalize

end Constraint

namespace Tree

mutual

/-- **Two trees that differ in policies**, as `P` relates them.  On the second side arrays and tuples may stand where
the first has a constraint for them in a leaf. -/
inductive Similar (P : Policy → Policy → Prop) : Tree → Tree → Prop
  | leaf (c : Constraint) : Similar P (leaf c) (leaf c)
  | leafArray {c : Constraint} {t : Tree} : Similar P (leaf c) t → Similar P (leaf c.array) (array t)
  | leafTuple {cs : List Constraint} {ts : List Tree} :
    SimilarEach P (cs.map leaf) ts → Similar P (leaf (.tuple cs)) (tuple ts)
  | object {fields fields' : List Field} {policy policy' : Policy} :
    P policy policy' → SimilarFields P fields fields' → Similar P (object fields policy) (object fields' policy')
  | array {t t' : Tree} : Similar P t t' → Similar P (array t) (array t')
  | tuple {ts ts' : List Tree} : SimilarEach P ts ts' → Similar P (tuple ts) (tuple ts')

inductive SimilarFields (P : Policy → Policy → Prop) : List Field → List Field → Prop
  | nil : SimilarFields P [] []
  | cons {name : String} {optional : Bool} {t t' : Tree} {fields fields' : List Field} :
    Similar P t t' → SimilarFields P fields fields' →
      SimilarFields P (⟨name, optional, t⟩ :: fields) (⟨name, optional, t'⟩ :: fields')

inductive SimilarEach (P : Policy → Policy → Prop) : List Tree → List Tree → Prop
  | nil : SimilarEach P [] []
  | cons {t t' : Tree} {ts ts' : List Tree} :
    Similar P t t' → SimilarEach P ts ts' → SimilarEach P (t :: ts) (t' :: ts')

end

variable {P : Policy → Policy → Prop}

section Structure

mutual

theorem Similar.refl (hP : ∀ policy, P policy policy) : ∀ (t : Tree), Similar P t t
  | leaf c => .leaf c
  | object fields policy => .object (hP policy) (SimilarFields.refl hP fields)
  | array t => .array (Similar.refl hP t)
  | tuple ts => .tuple (SimilarEach.refl hP ts)

theorem SimilarFields.refl (hP : ∀ policy, P policy policy) : ∀ (fields : List Field), SimilarFields P fields fields
  | [] => .nil
  | ⟨_, _, t⟩ :: fields => .cons (Similar.refl hP t) (SimilarFields.refl hP fields)

theorem SimilarEach.refl (hP : ∀ policy, P policy policy) : ∀ (ts : List Tree), SimilarEach P ts ts
  | [] => .nil
  | t :: ts => .cons (Similar.refl hP t) (SimilarEach.refl hP ts)

end

theorem SimilarFields.of_forall₂ : ∀ {fields fields' : List Field},
    List.Forall₂ (Field.Rel (Similar P)) fields fields' → SimilarFields P fields fields'
  | _, _, .nil => .nil
  | ⟨_, _, _⟩ :: _, ⟨_, _, _⟩ :: _, .cons ⟨hn, ho, ht⟩ h => by
    dsimp only at hn ho ht
    rw [hn, ho]
    exact .cons ht (.of_forall₂ h)

theorem SimilarEach.of_forall₂ : ∀ {ts ts' : List Tree}, List.Forall₂ (Similar P) ts ts' → SimilarEach P ts ts'
  | _, _, .nil => .nil
  | _, _, .cons ht h => .cons ht (.of_forall₂ h)

theorem SimilarEach.length_eq : ∀ {ts ts' : List Tree}, SimilarEach P ts ts' → ts.length = ts'.length
  | _, _, .nil => rfl
  | _, _, .cons _ h => by rw [List.length_cons, List.length_cons, h.length_eq]

theorem SimilarFields.declares_eq (key : String) : ∀ {fields fields' : List Field}, SimilarFields P fields fields' →
    declares fields key = declares fields' key
  | _, _, .nil => rfl
  | _, _, .cons _ h => by
    have ih := declares_eq key h
    unfold declares at ih ⊢
    rw [List.any_cons, List.any_cons, ih]

theorem Similar.isOptional_eq {t t' : Tree} (h : Similar P t t') : t.isOptional = t'.isOptional := by
  cases h <;> rfl

theorem Similar.splitOptional {t t' : Tree} (h : Similar P t t') : Similar P t.splitOptional.1 t'.splitOptional.1 := by
  cases h with
  | leaf c => exact .leaf _
  | leafArray h => exact .leafArray h
  | leafTuple h => exact .leafTuple h
  | object hp h => exact .object hp h
  | array h => exact .array h
  | tuple h => exact .tuple h

/-- Nothing is followed first that the other does not follow first. -/
theorem Similar.heads_eq {t t' : Tree} (h : Similar P t t') : t.heads = t'.heads := by
  cases h <;> rfl

/-- **The constructs of descriptions respect similarity**, under policies that `P` relates. -/
theorem Similar.congruence (hP : ∀ policy, P policy policy) {policy policy' : Policy} (h : P policy policy') :
    Congruence policy policy' (Similar P) where
  refl := .refl hP
  isOptional := Similar.isOptional_eq
  unmarked := Similar.splitOptional
  object own hf := by
    refine .object ?_ (.of_forall₂ hf)
    cases own with
    | none => exact h
    | some own => exact hP own
  array := .array
  tuple hts := .tuple (.of_forall₂ hts)

end Structure

section Shape

theorem shapeAll_map_leaf (cs : List Constraint) : shapeAll (cs.map leaf) = Constraint.shapeAll cs := by
  induction cs with
  | nil => rfl
  | cons c cs ih => rw [List.map_cons, shapeAll, Constraint.shapeAll, shape, ih]

mutual

/-- **Similar trees have one shape.** -/
theorem Similar.shape_eq : ∀ {t t' : Tree}, Similar P t t' → t.shape = t'.shape
  | _, _, .leaf c => rfl
  | _, _, .leafArray h => by
    have ih := h.shape_eq
    rw [shape] at ih
    rw [shape, shape, Constraint.shape, ih]
  | _, _, .leafTuple h => by rw [shape, shape, Constraint.shape, ← shapeAll_map_leaf, h.shapeAll_eq]
  | _, _, .object _ h => by rw [shape, shape, h.shapeFields_eq]
  | _, _, .array h => by rw [shape, shape, h.shape_eq]
  | _, _, .tuple h => by rw [shape, shape, h.shapeAll_eq]

theorem SimilarFields.shapeFields_eq : ∀ {fields fields' : List Field}, SimilarFields P fields fields' →
    shapeFields fields = shapeFields fields'
  | _, _, .nil => rfl
  | _, _, .cons h hs => by rw [shapeFields, shapeFields, h.shape_eq, hs.shapeFields_eq]

theorem SimilarEach.shapeAll_eq : ∀ {ts ts' : List Tree}, SimilarEach P ts ts' → shapeAll ts = shapeAll ts'
  | _, _, .nil => rfl
  | _, _, .cons h hs => by rw [shapeAll, shapeAll, h.shape_eq, hs.shapeAll_eq]

end

end Shape

section Allows

variable {B : Bool → Bool → Prop} {follow follow' : String → Json → Bool}

theorem allowsEach_map_leaf : ∀ (cs : List Constraint) (vs : List Json),
    allowsEach follow (cs.map leaf) vs = Constraint.allowsEach follow cs vs
  | [], [] => by rw [List.map_nil, allowsEach, Constraint.allowsEach]
  | [], _ :: _ => by simp only [List.map_nil, allowsEach, Constraint.allowsEach]
  | _ :: _, [] => by simp only [List.map_cons, allowsEach, Constraint.allowsEach]
  | c :: cs, v :: vs => by
    rw [List.map_cons, allowsEach, Constraint.allowsEach, allows, allowsEach_map_leaf cs vs]

mutual

/-- **Similar trees decide in related ways**, if references are decided so and policies reject so. -/
theorem Similar.rel_allows (hB : BoolCongruence B) (hP : ∀ p p', P p p' → B (p != .reject) (p' != .reject))
    (hf : ∀ name v, B (follow name v) (follow' name v)) : ∀ {t t' : Tree}, Similar P t t' → ∀ (v : Json),
      B (t.allows follow v) (t'.allows follow' v)
  | _, _, .leaf c, v => by
    rw [allows, allows]
    exact c.rel_allows hB hf v
  | _, _, .leafArray h, v => by
    cases v with
    | array items =>
      rw [allows, allows, Constraint.allows]
      refine hB.all fun x _ => ?_
      have ih := h.rel_allows hB hP hf x
      rwa [allows] at ih
    | _ =>
      simp only [allows, Constraint.allows]
      exact hB.refl _
  | _, _, .leafTuple h, v => by
    cases v with
    | array items =>
      rw [allows, allows, Constraint.allows]
      rw [← allowsEach_map_leaf]
      exact h.rel_allowsEach hB hP hf items
    | _ =>
      simp only [allows, Constraint.allows]
      exact hB.refl _
  | _, _, .object hp h, v => by
    cases v with
    | object entries =>
      rw [allows, allows]
      refine hB.and (h.rel_allowsFields hB hP hf entries) (hB.or (hP _ _ hp) ?_)
      rw [funext fun e : String × Json => h.declares_eq e.1]
      exact hB.refl _
    | _ =>
      simp only [allows]
      exact hB.refl _
  | _, _, .array h, v => by
    cases v with
    | array items =>
      rw [allows, allows]
      exact hB.all fun x _ => h.rel_allows hB hP hf x
    | _ =>
      simp only [allows]
      exact hB.refl _
  | _, _, .tuple h, v => by
    cases v with
    | array items =>
      rw [allows, allows]
      exact h.rel_allowsEach hB hP hf items
    | _ =>
      simp only [allows]
      exact hB.refl _

theorem SimilarFields.rel_allowsFields (hB : BoolCongruence B)
    (hP : ∀ p p', P p p' → B (p != .reject) (p' != .reject)) (hf : ∀ name v, B (follow name v) (follow' name v)) :
    ∀ {fields fields' : List Field}, SimilarFields P fields fields' → ∀ (entries : List (String × Json)),
      B (allowsFields follow fields entries) (allowsFields follow' fields' entries)
  | _, _, .nil, entries => by
    rw [allowsFields, allowsFields]
    exact hB.refl _
  | _, _, @SimilarFields.cons _ name _ _ _ _ _ h hs, entries => by
    rw [allowsFields, allowsFields]
    refine hB.and ?_ (hs.rel_allowsFields hB hP hf entries)
    cases entries.lookup name with
    | some x => exact h.rel_allows hB hP hf x
    | none => exact hB.refl _

theorem SimilarEach.rel_allowsEach (hB : BoolCongruence B)
    (hP : ∀ p p', P p p' → B (p != .reject) (p' != .reject)) (hf : ∀ name v, B (follow name v) (follow' name v)) :
    ∀ {ts ts' : List Tree}, SimilarEach P ts ts' → ∀ (vs : List Json),
      B (allowsEach follow ts vs) (allowsEach follow' ts' vs)
  | _, _, .nil, [] => by rw [allowsEach, allowsEach]; exact hB.refl _
  | _, _, .nil, _ :: _ => by simp only [allowsEach]; exact hB.refl _
  | _, _, .cons _ _, [] => by simp only [allowsEach]; exact hB.refl _
  | _, _, .cons h hs, v :: vs => by
    rw [allowsEach, allowsEach]
    exact hB.and (h.rel_allows hB hP hf v) (hs.rel_allowsEach hB hP hf vs)

end

end Allows

section Normalize

variable {allow : String → Json → Bool} {follow follow' : String → Json → Json}

theorem normalizeEach_map_leaf (cs : List Constraint) (vs : List Json) :
    normalizeEach follow (cs.map leaf) vs = Constraint.normalizeEach follow cs vs := by
  induction cs generalizing vs with
  | nil => simp only [List.map_nil, normalizeEach, Constraint.normalizeEach]
  | cons c cs ih =>
    cases vs with
    | nil => simp only [List.map_cons, normalizeEach, Constraint.normalizeEach]
    | cons v vs => rw [List.map_cons, normalizeEach, Constraint.normalizeEach, normalize, ih]

/-- Policies that agree, or of which the second rejects. -/
def RejectsOrAgrees (P : Policy → Policy → Prop) : Prop := ∀ p p', P p p' → p = p' ∨ p' = .reject

mutual

/-- **Of a value that the second allows similar trees make the same**, where no policy differs but for one of the second
that rejects: then the value has no key on which the policies could differ. -/
theorem Similar.normalize_eq (hP : RejectsOrAgrees P)
    (hf : ∀ name v, v.distinctKeys = true → allow name v = true → follow name v = follow' name v) :
    ∀ {t t' : Tree}, Similar P t t' → ∀ (v : Json), v.distinctKeys = true → t'.allows allow v = true →
      t.normalize follow v = t'.normalize follow' v
  | _, _, .leaf c, v, hd, h => by
    rw [allows] at h
    rw [normalize, normalize, c.normalize_eq hf v hd h]
  | _, _, .leafArray ht, v, hd, h => by
    cases v with
    | array items =>
      rw [normalize, normalize, Constraint.normalize]
      rw [allows, List.all_eq_true] at h
      refine congrArg Json.array (List.map_congr_left fun x hx => ?_)
      have ih := ht.normalize_eq hP hf x (Json.distinctKeys_array.1 hd x hx) (h x hx)
      rwa [normalize] at ih
    | _ => simp only [normalize, Constraint.normalize]
  | _, _, .leafTuple hts, v, hd, h => by
    cases v with
    | array items =>
      rw [normalize, normalize, Constraint.normalize]
      rw [allows] at h
      rw [← normalizeEach_map_leaf, hts.normalizeEach_eq hP hf items (Json.distinctKeys_array.1 hd) h]
    | _ => simp only [normalize, Constraint.normalize]
  | _, _, @Similar.object _ fields fields' policy policy' hp hfs, v, hd, h => by
    cases v with
    | object entries =>
      rw [allows, Bool.and_eq_true] at h
      obtain ⟨hnodup, hvalues⟩ := Json.distinctKeys_object.1 hd
      rw [normalize_object, normalize_object]
      refine congrArg Json.object (List.filterMap_congr fun e he => ?_)
      obtain ⟨k, x⟩ := e
      dsimp only
      rw [hfs.normalizeField_eq hP hf k x (hvalues _ he) entries h.1 (lookup_of_mem hnodup he)]
      cases hn : normalizeField follow' fields' k x with
      | some y => rfl
      | none =>
        rcases hP policy policy' hp with rfl | rfl
        · rfl
        · rw [normalizeField_eq, Option.map_eq_none_iff] at hn
          have hall := h.2
          simp only [bne_self_eq_false, Bool.false_or, List.all_eq_true] at hall
          have hdeclared : declares fields' k = true := hall (k, x) he
          rw [declares_eq_false_iff.2 hn] at hdeclared
          cases hdeclared
    | _ => simp only [normalize]
  | _, _, .array ht, v, hd, h => by
    cases v with
    | array items =>
      rw [normalize, normalize]
      rw [allows, List.all_eq_true] at h
      refine congrArg Json.array (List.map_congr_left fun x hx => ?_)
      exact ht.normalize_eq hP hf x (Json.distinctKeys_array.1 hd x hx) (h x hx)
    | _ => simp only [normalize]
  | _, _, .tuple hts, v, hd, h => by
    cases v with
    | array items =>
      rw [normalize, normalize]
      rw [allows] at h
      exact congrArg Json.array (hts.normalizeEach_eq hP hf items (Json.distinctKeys_array.1 hd) h)
    | _ => simp only [normalize]

theorem SimilarFields.normalizeField_eq (hP : RejectsOrAgrees P)
    (hf : ∀ name v, v.distinctKeys = true → allow name v = true → follow name v = follow' name v) :
    ∀ {fields fields' : List Field}, SimilarFields P fields fields' → ∀ (k : String) (x : Json),
      x.distinctKeys = true → ∀ (entries : List (String × Json)), allowsFields allow fields' entries = true →
        entries.lookup k = some x → normalizeField follow fields k x = normalizeField follow' fields' k x
  | _, _, .nil, k, x, _, _, _, _ => by rw [normalizeField, normalizeField]
  | _, _, @SimilarFields.cons _ name _ _ _ _ _ ht hs, k, x, hd, entries, h, hx => by
    rw [allowsFields, Bool.and_eq_true] at h
    rw [normalizeField, normalizeField]
    by_cases hk : name = k
    · subst hk
      rw [hx] at h
      rw [if_pos rfl, if_pos rfl, ht.normalize_eq hP hf x hd h.1]
    · rw [if_neg hk, if_neg hk, hs.normalizeField_eq hP hf k x hd entries h.2 hx]

theorem SimilarEach.normalizeEach_eq (hP : RejectsOrAgrees P)
    (hf : ∀ name v, v.distinctKeys = true → allow name v = true → follow name v = follow' name v) :
    ∀ {ts ts' : List Tree}, SimilarEach P ts ts' → ∀ (vs : List Json), (∀ v ∈ vs, v.distinctKeys = true) →
      allowsEach allow ts' vs = true → normalizeEach follow ts vs = normalizeEach follow' ts' vs
  | _, _, .nil, _, _, _ => by simp only [normalizeEach]
  | _, _, .cons _ _, [], _, _ => by simp only [normalizeEach]
  | _, _, .cons ht hs, v :: vs, hd, h => by
    rw [allowsEach, Bool.and_eq_true] at h
    rw [List.forall_mem_cons] at hd
    rw [normalizeEach, normalizeEach, ht.normalize_eq hP hf v hd.1 h.1, hs.normalizeEach_eq hP hf vs hd.2 h.2]

end

end Normalize

end Tree

open Assay.Tree (Similar RejectsOrAgrees)

namespace Definitions

variable {P : Policy → Policy → Prop} {defs defs' : Definitions}

/-- **References to similar definitions are decided in related ways**, by induction on the budget. -/
theorem Rel.rel_allows {B : Bool → Bool → Prop} (hB : BoolCongruence B)
    (hP : ∀ p p', P p p' → B (p != .reject) (p' != .reject)) (h : Rel (Similar P) defs defs') :
    ∀ (budget : Nat) (name : String) (v : Json), B (defs.allows budget name v) (defs'.allows budget name v)
  | 0, _, _ => hB.refl _
  | budget + 1, name, v => by
    have hl := h.lookup name
    rw [allows, allows]
    generalize defs.lookup name = found at hl ⊢
    generalize defs'.lookup name = found' at hl ⊢
    cases hl with
    | none => exact hB.refl _
    | some ht => exact ht.rel_allows hB hP (h.rel_allows hB hP budget) v

/-- References to similar definitions make the same of what the second allow, by induction on the budget. -/
theorem Rel.normalize_eq (hP : RejectsOrAgrees P) (h : Rel (Similar P) defs defs') : ∀ (budget : Nat) (name : String)
    (v : Json), v.distinctKeys = true → defs'.allows budget name v = true →
      defs.normalize budget name v = defs'.normalize budget name v
  | 0, _, _, _, ha => by cases ha
  | budget + 1, name, v, hd, ha => by
    have hl := h.lookup name
    rw [allows] at ha
    rw [normalize, normalize]
    generalize defs.lookup name = found at hl ⊢
    generalize defs'.lookup name = found' at hl ha ⊢
    cases hl with
    | none => rfl
    | some ht => exact ht.normalize_eq hP (h.normalize_eq hP budget) v hd ha

/-- References to similar definitions of the same policies are decided alike. -/
theorem Rel.allows_eq (h : Rel (Similar (· = ·)) defs defs') (budget : Nat) :
    defs.allows budget = defs'.allows budget := by
  funext name v
  exact h.rel_allows boolCongruence_eq (fun _ _ hp => congrArg (· != .reject) hp) budget name v

end Definitions

namespace Validator

theorem validate_eq_valid_iff_allows {v : Validator} {x n : Json} :
    v.validate x = .valid n ↔ v.allows x = true ∧ n = v.normalize x := by
  rw [validate_eq_valid_iff, violations_eq_nil_iff]

/-- **Two validators of similar trees and definitions**, with the same limit. -/
structure Similar (P : Policy → Policy → Prop) (v w : Validator) : Prop where
  root : v.root.Similar P w.root
  scope : Definitions.Rel (Tree.Similar P) v.scope w.scope
  maxDepth : v.maxDepth = w.maxDepth

namespace Similar

variable {P : Policy → Policy → Prop} {v w : Validator}

theorem rel_allows {B : Bool → Bool → Prop} (hB : BoolCongruence B)
    (hP : ∀ p p', P p p' → B (p != .reject) (p' != .reject)) (h : v.Similar P w) (x : Json) :
      B (v.allows x) (w.allows x) := by
  unfold allows
  rw [h.maxDepth]
  exact h.root.rel_allows hB hP (h.scope.rel_allows hB hP w.maxDepth) x

theorem normalize_eq (hP : RejectsOrAgrees P) (h : v.Similar P w) {x : Document} (hx : w.allows x.value = true) :
    v.normalize x.value = w.normalize x.value := by
  unfold normalize
  rw [h.maxDepth]
  exact h.root.normalize_eq hP (h.scope.normalize_eq hP w.maxDepth) x.value x.distinct hx

/-- Similar validators of the same policies decide alike. -/
theorem allows_eq (h : v.Similar (· = ·) w) (x : Json) : v.allows x = w.allows x :=
  h.rel_allows boolCongruence_eq (fun _ _ hp => congrArg (· != .reject) hp) x

theorem shape_eq (h : v.Similar P w) : v.shape = w.shape := h.root.shape_eq

end Similar

end Validator

/-- Under each of the names two compiled scopes have validators in the relation. -/
def CompiledScope.Rel (names : List String) (S : Validator → Validator → Prop) (s s' : CompiledScope) : Prop :=
  ∀ name ∈ names, ∃ v w, s.validator? name = some v ∧ s'.validator? name = some w ∧ S v w

theorem CompiledScope.Rel.imp {names : List String} {S S' : Validator → Validator → Prop} {s s' : CompiledScope}
    (h : Rel names S s s') (hS : ∀ v w, S v w → S' v w) : Rel names S' s s' := fun name hn => by
  obtain ⟨v, w, hv, hw, hvw⟩ := h name hn
  exact ⟨v, w, hv, hw, hS v w hvw⟩

section Compile

variable {P : Policy → Policy → Prop}

/-- Descriptions that lower to similar trees compile to similar validators. -/
theorem Compiler.similar_compile {c c' : Compiler} (hc : c.Reached) (hc' : c'.Reached)
    (hm : c.options.maxDepth = c'.options.maxDepth) {d d' : Description}
    (h : d.LowersAlike Lowering.BothSound (Tree.Similar P) readCached readCached (fun _ => false) c.options.policy
      c'.options.policy d') : SameResult (Validator.Similar P) (c.compile d).1 (c'.compile d').1 := by
  refine (sameResult_compile hc hc' h).imp ?_
  rintro _ _ ⟨t, t', ht, rfl, rfl⟩
  exact ⟨ht, .nil, hm⟩

/-- Scopes whose definitions lower to similar trees compile to similar validators, under every name. -/
theorem Scope.similar_compile {s s' : Scope} {options options' : Options} (hm : options.maxDepth = options'.maxDepth)
    (h : LowersAlike Lowering.BothSound (Tree.Similar P) s.names.contains options.policy options'.policy s.definitions
      s'.definitions) :
      SameResult (CompiledScope.Rel s.names (Validator.Similar P)) (s.compile options) (s'.compile options') := by
  have hsame := sameResult_compile (fun _ _ => Tree.Similar.heads_eq) h
  refine hsame.imp_of_ok fun compiled compiled' hc hs name hn => ?_
  obtain ⟨v, hv⟩ := exists_validator?_of_mem hc hn
  unfold CompiledScope.validator? at hv ⊢
  obtain ⟨t, ht, rfl⟩ := Option.map_eq_some_iff.1 hv
  have hl := hs.definitions.lookup name
  rw [ht] at hl ⊢
  obtain ⟨t', ht', hsimilar⟩ := exists_of_rel_some hl
  rw [ht']
  exact ⟨_, _, rfl, rfl, hsimilar, hs.definitions, hs.maxDepth.trans (hm.trans hs.maxDepth'.symm)⟩

end Compile

end Assay
