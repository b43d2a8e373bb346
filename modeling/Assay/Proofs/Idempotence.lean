import Assay.Proofs.Fields
import Assay.Proofs.Stripping
/-!
# Normal forms once more

A normal form is its own normal form (`Validator.normalize_normalize`): an integer stays one, and what is stripped is
gone.  It is allowed once more if every integral union also allows the integers of the doubles that it allows
(`TruncatableAtUnions`), and outside a scope only then (`validate_normal`).  So it is where the doubles are whole
(`WholeAtUnions.truncatable`) and where all integers are among the alternatives (`truncatableAtUnions_of_mem`), but not
where the fraction of a double is cut that another alternative allows (`cut_fraction_not_allowed`).
-/
namespace Assay

section Stable

variable {follow : String → Json → Json}

theorem Json.asInteger_asInteger (v : Json) : v.asInteger.asInteger = v.asInteger := by
  rcases v.asInteger_cases with he | ⟨x, fits, -, he⟩
  · rw [he, he]
  · rw [he]
    rfl

namespace Constraint

mutual

/-- What a constraint normalizes is its own normal form, as for its references. -/
theorem normalize_normalize (hf : ∀ name v, follow name (follow name v) = follow name v) : ∀ (c : Constraint)
    (v : Json), c.normalize follow (c.normalize follow v) = c.normalize follow v
  | reference name, v => by
    rw [normalize, normalize]
    exact hf name v
  | optional c, v => by
    rw [normalize, normalize]
    exact normalize_normalize hf c v
  | format _, v | literal _, v => by rw [normalize, normalize]
  | kind _, v | range _ _ _, v | union _, v => by
    rw [normalize, normalize]
    split
    · exact v.asInteger_asInteger
    · rfl
  | array c, v => by
    cases v with
    | array items =>
      rw [normalize, normalize, List.map_map]
      exact congrArg Json.array (List.map_congr_left fun x _ => normalize_normalize hf c x)
    | _ => simp [normalize]
  | tuple cs, v => by
    cases v with
    | array items => rw [normalize, normalize, normalizeEach_normalizeEach hf cs items]
    | _ => simp [normalize]

theorem normalizeEach_normalizeEach (hf : ∀ name v, follow name (follow name v) = follow name v) :
    ∀ (cs : List Constraint) (vs : List Json),
      normalizeEach follow cs (normalizeEach follow cs vs) = normalizeEach follow cs vs
  | [], vs => by simp [normalizeEach]
  | _ :: _, [] => by simp [normalizeEach]
  | c :: cs, v :: vs => by
    rw [normalizeEach, normalizeEach, normalize_normalize hf c v, normalizeEach_normalizeEach hf cs vs]

end

end Constraint

namespace Tree

/-- The entries that are left are left once more, when the values of the fields are their own normal forms. -/
theorem normalizeEntries_normalizeEntries {fields : List Field} {policy : Policy}
    (hf : ∀ f ∈ fields, ∀ v, f.node.normalize follow (f.node.normalize follow v) = f.node.normalize follow v) :
      ∀ (entries : List (String × Json)), normalizeEntries follow fields policy
        (normalizeEntries follow fields policy entries) = normalizeEntries follow fields policy entries
  | [] => rfl
  | (k, x) :: entries => by
    have ih : normalizeEntries follow fields policy (normalizeEntries follow fields policy entries) = _ :=
      normalizeEntries_normalizeEntries hf entries
    rw [normalizeEntries_cons]
    cases hk : fields.find? (·.name == k) with
    | some f =>
      dsimp only
      rw [normalizeEntries_cons, hk]
      dsimp only
      rw [hf f (mem_of_find? hk).1, ih]
    | none =>
      dsimp only
      split
      · exact ih
      · rename_i hp
        rw [normalizeEntries_cons, hk]
        dsimp only
        rw [if_neg hp, ih]

mutual

/-- **What a tree normalizes is its own normal form**, as for its references. -/
theorem normalize_normalize (hf : ∀ name v, follow name (follow name v) = follow name v) : ∀ (t : Tree) (v : Json),
    t.normalize follow (t.normalize follow v) = t.normalize follow v
  | leaf c, v => by
    rw [normalize, normalize]
    exact c.normalize_normalize hf v
  | object fields policy, v => by
    cases v with
    | object entries =>
      rw [normalize_object, normalize_object, normalizeEntries_normalizeEntries (normalize_normalize_fields hf fields)]
    | _ => simp [normalize]
  | array t, v => by
    cases v with
    | array items =>
      rw [normalize, normalize, List.map_map]
      exact congrArg Json.array (List.map_congr_left fun x _ => normalize_normalize hf t x)
    | _ => simp [normalize]
  | tuple ts, v => by
    cases v with
    | array items => rw [normalize, normalize, normalizeEach_normalizeEach hf ts items]
    | _ => simp [normalize]

theorem normalize_normalize_fields (hf : ∀ name v, follow name (follow name v) = follow name v) :
    ∀ (fields : List Field), ∀ f ∈ fields, ∀ v,
      f.node.normalize follow (f.node.normalize follow v) = f.node.normalize follow v
  | ⟨_, _, t⟩ :: fields, f, hm => by
    rcases List.mem_cons.1 hm with hm | hm
    · rw [hm]
      exact normalize_normalize hf t
    · exact normalize_normalize_fields hf fields f hm

theorem normalizeEach_normalizeEach (hf : ∀ name v, follow name (follow name v) = follow name v) :
    ∀ (ts : List Tree) (vs : List Json),
      normalizeEach follow ts (normalizeEach follow ts vs) = normalizeEach follow ts vs
  | [], vs => by simp [normalizeEach]
  | _ :: _, [] => by simp [normalizeEach]
  | t :: ts, v :: vs => by
    rw [normalizeEach, normalizeEach, normalize_normalize hf t v, normalizeEach_normalizeEach hf ts vs]

end

end Tree

/-- What a reference normalizes is its own normal form, by induction on the budget. -/
theorem Definitions.normalize_normalize (defs : Definitions) : ∀ (budget : Nat) (name : String) (v : Json),
    defs.normalize budget name (defs.normalize budget name v) = defs.normalize budget name v
  | 0, _, _ => rfl
  | budget + 1, name, v => by
    rw [normalize, normalize]
    cases defs.lookup name with
    | none => rfl
    | some t => exact t.normalize_normalize (defs.normalize_normalize budget) v

/-- **A normal form is its own normal form**, of whatever value it is one. -/
theorem Validator.normalize_normalize (v : Validator) (x : Json) : v.normalize (v.normalize x) = v.normalize x :=
  v.root.normalize_normalize (v.scope.normalize_normalize v.maxDepth) x

end Stable

/-- Every double of a value that an integral union allows, by whatever alternative, it allows as an integer too, within
the same budget. -/
def TruncatableAtUnions (defs : Definitions) (root : Tree) (x : Json) : Prop :=
  ∀ p cs d budget, Tree.Checks defs root p (.leaf (.union cs)) → (Constraint.union cs).isIntegral = true →
    x.at? p = some (.number (.double d)) →
      (Constraint.union cs).allows (defs.allows budget) (.number (.double d)) = true →
        (Constraint.union cs).allows (defs.allows budget) (Json.number (.double d)).asInteger = true

/-- Every double of a value at which an integral union stands is allowed there as an integer, within some budget. -/
def TruncatedAtUnions (defs : Definitions) (root : Tree) (x : Json) : Prop :=
  ∀ p cs d, Tree.Checks defs root p (.leaf (.union cs)) → (Constraint.union cs).isIntegral = true →
    x.at? p = some (.number (.double d)) →
      ∃ budget, (Constraint.union cs).allows (defs.allows budget) (Json.number (.double d)).asInteger = true

section Passes

variable {defs : Definitions} {root : Tree} {x₀ : Json} {allow : String → Json → Bool} {follow : String → Json → Json}

/-- Where unions have met no fraction there is nothing that they could cut. -/
theorem WholeAtUnions.truncatable (h : WholeAtUnions defs root x₀) : TruncatableAtUnions defs root x₀ := by
  intro p cs d budget hc hi hx ha
  have hwhole : (Json.number (.double d)).Whole := by
    rintro _ ⟨⟩
    exact h p cs d hc hi hx
  have hsame := Tree.allows_asInteger hwhole defs budget (.leaf (.union cs))
  rw [Tree.allows, Tree.allows] at hsame
  rw [hsame]
  exact ha

/-- A union with all integers among its alternatives allows the integer of a double that it allows. -/
theorem Constraint.allows_asInteger_of_mem {cs : List Constraint} (hm : .kind .integer ∈ cs) {v : Json}
    (h : (union cs).allows allow v = true) : (union cs).allows allow v.asInteger = true := by
  rcases v.asInteger_cases with he | ⟨x, fits, -, he⟩
  · rwa [he]
  · rw [he, allows, allowsAny_iff]
    exact ⟨_, hm, by rw [allows]; rfl⟩

/-- **Where integral unions are written with all integers among their alternatives, no value has anything to cut.** -/
theorem truncatableAtUnions_of_mem
    (hroot : ∀ cs ∈ root.unions, (Constraint.union cs).isIntegral = true → .kind .integer ∈ cs)
    (hdefs : ∀ name t, defs.lookup name = some t → ∀ cs ∈ t.unions, (Constraint.union cs).isIntegral = true →
      .kind .integer ∈ cs) (x : Json) : TruncatableAtUnions defs root x := by
  intro p cs d budget hc hi _ ha
  refine Constraint.allows_asInteger_of_mem ?_ ha
  rcases hc.mem_unions cs List.mem_cons_self with hm | ⟨name, t, hl, hm⟩
  · exact hroot cs hm hi
  · exact hdefs name t hl cs hm hi

namespace Tree

/-- The keys that are left were there. -/
theorem exists_of_mem_normalizeEntries {fields : List Field} {policy : Policy} {entries : List (String × Json)}
    {k : String} {y : Json} (h : (k, y) ∈ normalizeEntries follow fields policy entries) : ∃ x, (k, x) ∈ entries := by
  unfold normalizeEntries at h
  obtain ⟨⟨k', x⟩, hm, he⟩ := List.mem_filterMap.1 h
  dsimp only at he
  split at he
  · cases he
    exact ⟨x, hm⟩
  · split at he
    · cases he
    · cases he
      exact ⟨_, hm⟩

mutual

/-- **A tree allows what it normalizes**, as do its references and unions. -/
theorem passes (hl : LeavesPass defs root x₀ allow follow allow) : ∀ (t : Tree), t.distinctFields = true →
    Passes defs root x₀ t (t.allows allow) (t.normalize follow) (t.allows allow)
  | leaf c, _, p, v, hm, h => by
    rw [normalize, allows]
    exact c.passes hl p v hm (by rwa [allows] at h)
  | object fields policy, hd, p, v, hm, h => by
    obtain ⟨hnodup, hd⟩ := distinctFields_object.1 hd
    cases v with
    | object entries =>
      rw [allows, Bool.and_eq_true] at h
      obtain ⟨hpresent, habsent⟩ := allowsFields_iff.1 h.1
      rw [normalize_object, allows, Bool.and_eq_true]
      refine ⟨allowsFields_iff.2 ⟨fun f hf y hy => ?_, fun f hf hy => ?_⟩, ?_⟩
      · rw [lookup_normalizeEntries (find?_of_mem hnodup hf)] at hy
        obtain ⟨x, hx, rfl⟩ := Option.map_eq_some_iff.1 hy
        exact passes_of_mem_fields hl fields hd f hf _ x (hm.field (find?_of_mem hnodup hf) hx) (hpresent f hf x hx)
      · rw [lookup_normalizeEntries (find?_of_mem hnodup hf), Option.map_eq_none_iff] at hy
        exact habsent f hf hy
      · rw [Bool.or_eq_true, List.all_eq_true] at h ⊢
        refine h.2.imp_right fun hall e he => ?_
        obtain ⟨x, hx⟩ := exists_of_mem_normalizeEntries he
        exact hall (e.1, x) hx
    | _ => simp [allows] at h
  | array t, hd, p, v, hm, h => by
    cases v with
    | array items =>
      rw [allows, List.all_eq_true] at h
      rw [normalize, allows, List.all_eq_true, List.forall_mem_map]
      intro x hx
      obtain ⟨i, hi⟩ := List.mem_iff_getElem?.1 hx
      exact passes hl t hd _ x (hm.item hi) (h x hx)
    | _ => simp [allows] at h
  | tuple ts, hd, p, v, hm, h => by
    cases v with
    | array items =>
      rw [allows] at h
      obtain ⟨hlen, h⟩ := allowsEach_iff.1 h
      rw [normalize, allows]
      refine allowsEach_iff.2 ⟨by rw [length_normalizeEach, hlen], fun i t y hti hy => ?_⟩
      obtain ⟨x, hx⟩ := exists_getElem? hlen hti
      rw [getElem?_normalizeEach hti hx] at hy
      cases hy
      exact passes_of_mem hl ts (distinctFields_tuple.1 hd) t (List.mem_of_getElem? hti) _ x (hm.place hti hx)
        (h i t x hti hx)
    | _ => simp [allows] at h

theorem passes_of_mem_fields (hl : LeavesPass defs root x₀ allow follow allow) : ∀ (fields : List Field),
    (∀ f ∈ fields, f.node.distinctFields = true) → ∀ f ∈ fields,
      Passes defs root x₀ f.node (f.node.allows allow) (f.node.normalize follow) (f.node.allows allow)
  | ⟨_, _, t⟩ :: fields, hd, f, hm => by
    rcases List.mem_cons.1 hm with hm | hm
    · rw [hm]
      exact passes hl t (hd _ List.mem_cons_self)
    · exact passes_of_mem_fields hl fields (fun g hg => hd g (List.mem_cons_of_mem _ hg)) f hm

theorem passes_of_mem (hl : LeavesPass defs root x₀ allow follow allow) : ∀ (ts : List Tree),
    (∀ t ∈ ts, t.distinctFields = true) → ∀ t ∈ ts,
      Passes defs root x₀ t (t.allows allow) (t.normalize follow) (t.allows allow)
  | u :: ts, hd, t, hm => by
    rcases List.mem_cons.1 hm with hm | hm
    · rw [hm]
      exact passes hl u (hd _ List.mem_cons_self)
    · exact passes_of_mem hl ts (fun t ht => hd t (List.mem_cons_of_mem _ ht)) t hm

end

end Tree

namespace Definitions

/-- A union allows what it normalizes, as all that it changes is a double that it allows as an integer too. -/
theorem passes_union (ht : TruncatableAtUnions defs root x₀) (budget : Nat) (cs : List Constraint) :
    Passes defs root x₀ (.leaf (.union cs)) ((Constraint.union cs).allows (defs.allows budget))
      ((Constraint.union cs).normalize (defs.normalize budget))
      ((Constraint.union cs).allows (defs.allows budget)) := by
  intro p v hm h
  rw [Constraint.normalize]
  split
  · rename_i hi
    rcases v.asInteger_cases with he | ⟨d, -, rfl, -⟩
    · rw [he]
      exact h
    · exact ht p cs d budget hm.checks hi hm.found h
  · exact h

/-- What a reference normalizes it allows, by induction on the budget. -/
theorem passes (hd : defs.DistinctFields) (ht : TruncatableAtUnions defs root x₀) : ∀ (budget : Nat) (name : String),
    Passes defs root x₀ (.leaf (.reference name)) (defs.allows budget name) (defs.normalize budget name)
      (defs.allows budget name)
  | 0, _, _, _, _, h => by cases h
  | budget + 1, name, p, v, hm, h => by
    rw [allows] at h ⊢
    rw [normalize]
    cases hl : defs.lookup name with
    | none => rw [hl] at h; cases h
    | some t =>
      rw [hl] at h
      exact Tree.passes ⟨passes hd ht budget, passes_union ht budget⟩ t (hd name t hl) p v (hm.definition hl) h

end Definitions

end Passes

/-- Without definitions no budget makes a difference. -/
theorem TruncatedAtUnions.truncatable {root : Tree} {x : Json} (h : TruncatedAtUnions [] root x) :
    TruncatableAtUnions [] root x := by
  have hnil : ∀ budget, Definitions.allows [] budget = fun _ _ => false := fun budget => by cases budget <;> rfl
  intro p cs d budget hc hi hx _
  obtain ⟨other, hother⟩ := h p cs d hc hi hx
  rw [hnil] at hother ⊢
  exact hother

namespace Validator

/-- **The normal form of a valid value is its own normal form**, and valid if every integral union allows the integers of
the doubles that it allows.  It is valid only if the integers are allowed within some budget, which outside a scope is
the same. -/
theorem validate_normal (v : Validator) (hv : v.Compiled) (x : Document) (n : Json)
    (h : v.validate x.value = .valid n) : v.normalize n = n ∧
      (TruncatableAtUnions v.scope v.root x.value → v.validate n = .valid n) ∧
      (v.validate n = .valid n → TruncatedAtUnions v.scope v.root x.value) ∧
      (v.definitions = none → v.validate n = .valid n → TruncatableAtUnions v.scope v.root x.value) := by
  obtain ⟨hvx, rfl⟩ := (v.validate_eq_valid_iff x.value n).1 h
  have ha := (v.violations_eq_nil_iff x.value).1 hvx
  have htruncated : v.validate (v.normalize x.value) = .valid (v.normalize x.value) →
      TruncatedAtUnions v.scope v.root x.value := by
    -- The normal form holds the integer where the double was, and there the same union allows it.
    intro hn p cs d hc hi hx
    have han := (v.violations_eq_nil_iff _).1 ((v.validate_eq_valid_iff _ _).1 hn).1
    obtain ⟨_, _, hy⟩ := hc.normalize ha _ hx
    rw [Tree.normalize, Constraint.normalize, if_pos hi] at hy
    obtain ⟨budget, hallows, -⟩ := hc.normalize han _ hy
    rw [Tree.allows] at hallows
    exact ⟨budget, hallows⟩
  refine ⟨v.normalize_normalize x.value, fun ht => ?_, htruncated, fun hnone hn => ?_⟩
  · refine (v.validate_eq_valid_iff _ _).2 ⟨(v.violations_eq_nil_iff _).2 ?_, (v.normalize_normalize x.value).symm⟩
    have hdistinct := hv.distinctFields
    exact Tree.passes ⟨Definitions.passes hdistinct.scope ht v.maxDepth, Definitions.passes_union ht v.maxDepth⟩
      v.root hdistinct.root [] x.value (.start x) ha
  · have hscope : v.scope = [] := by rw [scope, hnone]; rfl
    have ht := htruncated hn
    rw [hscope] at ht ⊢
    exact ht.truncatable

theorem compiled_countOnly : countOnly.Compiled :=
  .alone (c := ⟨⟨.strip, 100⟩, []⟩)
    (d := .object [⟨"n", .constraint (.union [.kind .integer, .literal .null]), false⟩] none) (.new _)
    (fun _ h => nomatch h) rfl

/-- Neither is the integer written once more nor another key stripped. -/
theorem validate_normal_countOnly : countOnly.validate twoAndMore.value = .valid justTwo ∧
    TruncatableAtUnions countOnly.scope countOnly.root twoAndMore.value ∧ countOnly.normalize justTwo = justTwo ∧
      countOnly.validate justTwo = .valid justTwo := by
  have ht : TruncatableAtUnions countOnly.scope countOnly.root twoAndMore.value :=
    truncatableAtUnions_of_mem (List.forall_mem_singleton.2 fun _ => List.mem_cons_self)
      (fun _ _ (hl : List.lookup _ [] = some _) => nomatch hl) _
  obtain ⟨hn, hvalid, -⟩ := validate_normal countOnly compiled_countOnly twoAndMore justTwo countOnly_validate
  exact ⟨countOnly_validate, ht, hn, hvalid ht⟩

/-- Whole numbers up to zero, or one and a half. -/
def zeroDownOrOneAndHalf : Constraint :=
  .union [.range .integer none (some ⟨.finite ⟨false, 0, by decide +kernel⟩, true⟩),
    .literal (.number (.finite oneAndHalf))]

/-- **A cut fraction may leave an integer that is not allowed**: where whole numbers are allowed
up to zero, one and a half is valid as `1`, which is not valid. -/
theorem cut_fraction_not_allowed : ∃ v, compile (.constraint zeroDownOrOneAndHalf) = .ok v ∧
    v.validate (.number (.double oneAndHalf)) = .valid (.number (.integer 1 (by decide))) ∧
    ¬ v.validate (.number (.integer 1 (by decide))) = .valid (.number (.integer 1 (by decide))) := by
  refine ⟨⟨.leaf zeroDownOrOneAndHalf, none, 100⟩, rfl, (validate_eq_valid_iff _ _ _).2 ⟨?_, ?_⟩, fun h => ?_⟩
  · refine (violations_eq_nil_iff _ _).2 ?_
    have hl : (Literal.number (.finite oneAndHalf)).admits (.number (.double oneAndHalf)) = true :=
      Double.beq_self_of_isFinite rfl
    rw [allows, Tree.allows, zeroDownOrOneAndHalf, Constraint.allows, Constraint.allowsAny, Constraint.allowsAny,
      Constraint.allows, Constraint.allows, hl, Bool.true_or, Bool.or_true]
  · have hi : zeroDownOrOneAndHalf.isIntegral = true := rfl
    rw [zeroDownOrOneAndHalf] at hi
    rw [normalize, Tree.normalize, zeroDownOrOneAndHalf, Constraint.normalize, if_pos hi,
      Json.asInteger_double (n := 1) (by decide +kernel) (by decide)]
  · have ha := (violations_eq_nil_iff _ _).1 ((validate_eq_valid_iff _ _ _).1 h).1
    exact absurd ha (by decide +kernel)

end Validator

end Assay
