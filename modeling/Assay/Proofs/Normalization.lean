import Assay.Proofs.Alteration
import Assay.Proofs.Decision
import Assay.Proofs.Parts
import Assay.Proofs.WholeNumbers
import Assay.Schema.Lowering
/-!
# What a normal form keeps

The normal form of an allowed value is the value itself up to integers for doubles and stripped keys (`Tree.keeps`), if
every double that an integral union checks is whole; what stands at a path becomes the normal form under the trees that
check it (`Tree.Checks.normalize`).  A union may allow a double that is not whole by another alternative than the
integral one, and then the double loses its fraction (`normalize_cuts_fraction`): a normalization keeps all numbers
exactly when there is no such double (`altered_normalize_iff`).
-/
namespace Assay

/-- Every double of a value at which an integral union stands is whole. -/
def WholeAtUnions (defs : Definitions) (root : Tree) (x : Json) : Prop :=
  ∀ p cs d, Tree.Checks defs root p (.leaf (.union cs)) → (Constraint.union cs).isIntegral = true →
    x.at? p = some (.number (.double d)) → d.isIntegral = true

namespace Json

theorem altered_asInteger {gone : Path → String → Prop} {v : Json} {p : Path} (h : v.Whole) :
    Altered Number.Rewritten gone p v v.asInteger := by
  rcases v.asInteger_cases with he | ⟨d, fits, rfl, he⟩
  · rw [he]
    exact Altered.refl .same v p
  · rw [he]
    exact .number (Number.rewritten_truncate_iff.2 (h d rfl))

end Json

section Kept

variable {defs : Definitions} {root : Tree} {x₀ : Json} {allow : String → Json → Bool} {follow : String → Json → Json}

/-- The normal form of an allowed part of `x₀` keeps it, where `t` checks it. -/
def Keeps (defs : Definitions) (root : Tree) (x₀ : Json) (t : Tree) (allows : Json → Bool)
    (normalize : Json → Json) : Prop :=
  ∀ p v, Tree.Meets defs root x₀ p t v → allows v = true →
    Json.Altered Number.Rewritten (Tree.Strips defs root) p v (normalize v)

namespace Constraint

mutual

/-- A constraint keeps what it normalizes, as its references do. -/
theorem keeps (hw : WholeAtUnions defs root x₀)
    (hf : ∀ name, Keeps defs root x₀ (.leaf (reference name)) (allow name) (follow name)) : ∀ (c : Constraint),
      Keeps defs root x₀ (.leaf c) (c.allows allow) (c.normalize follow)
  | reference name, p, v, hm, h => by
    rw [normalize]
    exact hf name p v hm (by rwa [allows] at h)
  | optional c, p, v, hm, h => by
    rw [normalize]
    exact keeps hw hf c p v hm.inner (by rwa [allows] at h)
  | format _, p, v, _, _ => by
    rw [normalize]
    exact .refl .same v p
  | literal _, p, v, _, _ => by
    rw [normalize]
    exact .refl .same v p
  | kind k, p, v, _, h => by
    rw [normalize]
    split
    · rename_i hk
      cases (beq_iff_eq.1 hk : k = .integer)
      exact Json.altered_asInteger (Kind.whole_of_admits h)
    · exact .refl .same v p
  | range k min max, p, v, _, h => by
    rw [normalize]
    split
    · rename_i hk
      cases (beq_iff_eq.1 hk : k = .integer)
      exact Json.altered_asInteger (Kind.whole_of_admitsWithin h)
    · exact .refl .same v p
  | union cs, p, v, hm, _ => by
    rw [normalize]
    split
    · rename_i hi
      exact Json.altered_asInteger fun d hd => hw p cs d hm.checks hi (hd ▸ hm.found)
    · exact .refl .same v p
  | array c, p, v, hm, h => by
    cases v with
    | array items =>
      rw [allows, List.all_eq_true] at h
      rw [normalize]
      refine .array (List.length_map _).symm fun i x y hx hy => ?_
      rw [List.getElem?_map, hx] at hy
      cases hy
      exact keeps hw hf c _ x (hm.leafItem hx) (h x (List.mem_of_getElem? hx))
    | _ => simp [allows] at h
  | tuple cs, p, v, hm, h => by
    cases v with
    | array items =>
      rw [allows] at h
      obtain ⟨hl, h⟩ := allowsEach_iff.1 h
      rw [normalize]
      refine .array (length_normalizeEach cs items).symm fun i x y hx hy => ?_
      obtain ⟨c, hci⟩ := exists_getElem? hl.symm hx
      rw [getElem?_normalizeEach hci hx] at hy
      cases hy
      exact keeps_of_mem hw hf cs c (List.mem_of_getElem? hci) _ x (hm.leafPlace hci hx) (h i c x hci hx)
    | _ => simp [allows] at h

theorem keeps_of_mem (hw : WholeAtUnions defs root x₀)
    (hf : ∀ name, Keeps defs root x₀ (.leaf (reference name)) (allow name) (follow name)) : ∀ (cs : List Constraint),
      ∀ c ∈ cs, Keeps defs root x₀ (.leaf c) (c.allows allow) (c.normalize follow)
  | d :: cs, c, hc => by
    rcases List.mem_cons.1 hc with hc | hc
    · rw [hc]
      exact keeps hw hf d
    · exact keeps_of_mem hw hf cs c hc

end

end Constraint

namespace Tree

/-- The entries that are left are those that are not stripped, kept under their fields. -/
theorem alteredEntries_normalizeEntries {fields : List Field} {policy : Policy} {p : Path}
    (hc : Checks defs root p (object fields policy)) : ∀ {entries : List (String × Json)},
      (∀ k x f, (k, x) ∈ entries → fields.find? (·.name == k) = some f →
        Json.Altered Number.Rewritten (Strips defs root) (p.push (.key k)) x (f.node.normalize follow x)) →
      Json.AlteredEntries Number.Rewritten (Strips defs root) p entries (normalizeEntries follow fields policy entries)
  | [], _ => .nil p
  | (k, x) :: entries, h => by
    have ih := alteredEntries_normalizeEntries hc fun k x f hm => h k x f (List.mem_cons_of_mem _ hm)
    rw [normalizeEntries_cons]
    split
    · rename_i f hf
      exact .keep (h k x f List.mem_cons_self hf) ih
    · rename_i hf
      split
      · rename_i hp
        subst hp
        exact .drop ⟨fields, hc, declares_eq_false_iff.2 hf⟩ ih
      · exact .keep (.refl .same x _) ih

mutual

/-- **A tree keeps what it normalizes**, as its references do. -/
theorem keeps (hw : WholeAtUnions defs root x₀)
    (hf : ∀ name, Keeps defs root x₀ (leaf (.reference name)) (allow name) (follow name)) : ∀ (t : Tree),
      Keeps defs root x₀ t (t.allows allow) (t.normalize follow)
  | leaf c, p, v, hm, h => by
    rw [normalize]
    exact c.keeps hw hf p v hm (by rwa [allows] at h)
  | object fields policy, p, v, hm, h => by
    cases v with
    | object entries =>
      rw [allows, Bool.and_eq_true] at h
      rw [normalize_object]
      refine .object (alteredEntries_normalizeEntries hm.checks fun k x f hx hff => ?_)
      obtain ⟨hmem, hname⟩ := mem_of_find? hff
      have hl := lookup_of_mem (Json.distinctKeys_object.1 hm.distinct).1 hx
      exact keeps_of_mem_fields hw hf fields f hmem _ x (hm.field hff hl)
        ((allowsFields_iff.1 h.1).1 f hmem x (hname ▸ hl))
    | _ => simp [allows] at h
  | array t, p, v, hm, h => by
    cases v with
    | array items =>
      rw [allows, List.all_eq_true] at h
      rw [normalize]
      refine .array (List.length_map _).symm fun i x y hx hy => ?_
      rw [List.getElem?_map, hx] at hy
      cases hy
      exact keeps hw hf t _ x (hm.item hx) (h x (List.mem_of_getElem? hx))
    | _ => simp [allows] at h
  | tuple ts, p, v, hm, h => by
    cases v with
    | array items =>
      rw [allows] at h
      obtain ⟨hl, h⟩ := allowsEach_iff.1 h
      rw [normalize]
      refine .array (length_normalizeEach ts items).symm fun i x y hx hy => ?_
      obtain ⟨t, hti⟩ := exists_getElem? hl.symm hx
      rw [getElem?_normalizeEach hti hx] at hy
      cases hy
      exact keeps_of_mem hw hf ts t (List.mem_of_getElem? hti) _ x (hm.place hti hx) (h i t x hti hx)
    | _ => simp [allows] at h

theorem keeps_of_mem_fields (hw : WholeAtUnions defs root x₀)
    (hf : ∀ name, Keeps defs root x₀ (leaf (.reference name)) (allow name) (follow name)) : ∀ (fields : List Field),
      ∀ f ∈ fields, Keeps defs root x₀ f.node (f.node.allows allow) (f.node.normalize follow)
  | ⟨_, _, t⟩ :: fields, f, hm => by
    rcases List.mem_cons.1 hm with hm | hm
    · rw [hm]
      exact keeps hw hf t
    · exact keeps_of_mem_fields hw hf fields f hm

theorem keeps_of_mem (hw : WholeAtUnions defs root x₀)
    (hf : ∀ name, Keeps defs root x₀ (leaf (.reference name)) (allow name) (follow name)) : ∀ (ts : List Tree),
      ∀ t ∈ ts, Keeps defs root x₀ t (t.allows allow) (t.normalize follow)
  | u :: ts, t, ht => by
    rcases List.mem_cons.1 ht with ht | ht
    · rw [ht]
      exact keeps hw hf u
    · exact keeps_of_mem hw hf ts t ht

end

end Tree

/-- A reference keeps what it normalizes, by induction on the budget. -/
theorem Definitions.keeps (hw : WholeAtUnions defs root x₀) : ∀ (budget : Nat) (name : String),
    Keeps defs root x₀ (.leaf (.reference name)) (defs.allows budget name) (defs.normalize budget name)
  | 0, name, p, v, _, h => by cases h
  | budget + 1, name, p, v, hm, h => by
    rw [Definitions.allows] at h
    rw [Definitions.normalize]
    cases ht : defs.lookup name with
    | none => rw [ht] at h; cases h
    | some t =>
      rw [ht] at h
      exact Tree.keeps hw (Definitions.keeps hw budget) t p v (hm.definition ht) h

end Kept

namespace Tree

variable {defs : Definitions} {root : Tree}

/-- **What stands at a path becomes its normal form under each tree that checks it**, within what is left of the budget
there. -/
theorem Checks.normalize {x : Json} {limit : Nat} (h : root.allows (defs.allows limit) x = true) {p : Path} {t : Tree}
    (hc : Checks defs root p t) : ∀ y, x.at? p = some y → ∃ budget, t.allows (defs.allows budget) y = true ∧
      (root.normalize (defs.normalize limit) x).at? p = some (t.normalize (defs.normalize budget) y) := by
  induction hc with
  | root =>
    intro y hy
    cases hy
    exact ⟨limit, h, rfl⟩
  | @field p fields policy k f hc hf ih =>
    intro y hy
    obtain ⟨z, hz, hy⟩ := Json.at?_push_eq_some_iff.1 hy
    obtain ⟨budget, ha, hn⟩ := ih z hz
    cases z with
    | object entries =>
      rw [allows, Bool.and_eq_true] at ha
      obtain ⟨hm, hname⟩ := mem_of_find? hf
      refine ⟨budget, (allowsFields_iff.1 ha.1).1 f hm y (hname ▸ hy), ?_⟩
      rw [normalize_object] at hn
      rw [Json.at?_push_of hn]
      exact (lookup_normalizeEntries hf policy entries).trans (by rw [show entries.lookup k = some y from hy]; rfl)
    | _ => cases hy
  | @item p t i hc ih =>
    intro y hy
    obtain ⟨z, hz, hy⟩ := Json.at?_push_eq_some_iff.1 hy
    obtain ⟨budget, ha, hn⟩ := ih z hz
    cases z with
    | array items =>
      rw [allows, List.all_eq_true] at ha
      refine ⟨budget, ha y (List.mem_of_getElem? hy), ?_⟩
      rw [Tree.normalize] at hn
      rw [Json.at?_push_of hn]
      exact List.getElem?_map.trans (by rw [show items[i]? = some y from hy]; rfl)
    | _ => cases hy
  | @place p ts i t hc ht ih =>
    intro y hy
    obtain ⟨z, hz, hy⟩ := Json.at?_push_eq_some_iff.1 hy
    obtain ⟨budget, ha, hn⟩ := ih z hz
    cases z with
    | array items =>
      rw [allows] at ha
      refine ⟨budget, (allowsEach_iff.1 ha).2 i t y ht hy, ?_⟩
      rw [Tree.normalize] at hn
      rw [Json.at?_push_of hn]
      exact getElem?_normalizeEach ht hy
    | _ => cases hy
  | @leafItem p c i hc ih =>
    intro y hy
    obtain ⟨z, hz, hy⟩ := Json.at?_push_eq_some_iff.1 hy
    obtain ⟨budget, ha, hn⟩ := ih z hz
    cases z with
    | array items =>
      rw [allows, Constraint.allows, List.all_eq_true] at ha
      refine ⟨budget, by rw [allows]; exact ha y (List.mem_of_getElem? hy), ?_⟩
      rw [Tree.normalize, Constraint.normalize] at hn
      rw [Json.at?_push_of hn]
      exact List.getElem?_map.trans (by rw [show items[i]? = some y from hy, Tree.normalize]; rfl)
    | _ => cases hy
  | @leafPlace p cs i c hc hci ih =>
    intro y hy
    obtain ⟨z, hz, hy⟩ := Json.at?_push_eq_some_iff.1 hy
    obtain ⟨budget, ha, hn⟩ := ih z hz
    cases z with
    | array items =>
      rw [allows, Constraint.allows] at ha
      refine ⟨budget, by rw [allows]; exact (Constraint.allowsEach_iff.1 ha).2 i c y hci hy, ?_⟩
      rw [Tree.normalize, Constraint.normalize] at hn
      rw [Json.at?_push_of hn, Tree.normalize]
      exact Constraint.getElem?_normalizeEach hci hy
    | _ => cases hy
  | inner hc ih =>
    intro y hy
    obtain ⟨budget, ha, hn⟩ := ih y hy
    rw [allows, Constraint.allows] at ha
    rw [Tree.normalize, Constraint.normalize] at hn
    exact ⟨budget, by rwa [allows], by rwa [Tree.normalize]⟩
  | @definition p name t hc ht ih =>
    intro y hy
    obtain ⟨budget, ha, hn⟩ := ih y hy
    rw [allows, Constraint.allows] at ha
    rw [Tree.normalize, Constraint.normalize] at hn
    cases budget with
    | zero => cases ha
    | succ budget =>
      rw [Definitions.allows, ht] at ha
      rw [Definitions.normalize, ht] at hn
      exact ⟨budget, ha, hn⟩

end Tree

namespace Validator

/-- **A normalization keeps all but doubles that it writes as integers of the same value and keys that it strips,
exactly when every double at which an integral union stands is whole.** -/
theorem altered_normalize_iff (v : Validator) (x : Document) (n : Json) (h : v.validate x.value = .valid n) :
    Json.Altered Number.Rewritten v.Strips [] x.value n ↔ WholeAtUnions v.scope v.root x.value := by
  obtain ⟨hv, rfl⟩ := (v.validate_eq_valid_iff x.value n).1 h
  have ha := (v.violations_eq_nil_iff x.value).1 hv
  constructor
  · intro hn p cs d hc hi hx
    obtain ⟨budget, _, hy⟩ := hc.normalize ha _ hx
    rw [Tree.normalize, Constraint.normalize, if_pos hi] at hy
    have hr := hn.at? p x.distinct hx hy
    cases hw : d.isIntegral with
    | true => rfl
    | false =>
      obtain ⟨fits, he⟩ := Json.asInteger_of_not_isIntegral hw
      rw [he] at hr
      cases hr with
      | number hr => rw [← hw]; exact Number.rewritten_truncate_iff.1 hr
  · intro hw
    exact Tree.keeps hw (Definitions.keeps hw v.maxDepth) v.root [] x.value (.start x) ha

/-- A count or nothing, and no other keys. -/
def countOnly : Validator :=
  ⟨.object [⟨"n", false, .leaf (.union [.kind .integer, .literal .null])⟩] .strip, none, 100⟩

/-- Two as a double next to a key that is stripped. -/
def twoAndMore : Document where
  value := .object [("n", .number (.double ⟨false, 2 * unitsPerOne, by decide +kernel⟩)), ("x", .null)]

def justTwo : Json := .object [("n", .number (.integer 2 (by decide)))]

theorem countOnly_validate : countOnly.validate twoAndMore.value = .valid justTwo := by
  refine (validate_eq_valid_iff _ _ _).2 ⟨(violations_eq_nil_iff _ _).2 ?_, ?_⟩
  · simp [countOnly, twoAndMore, allows, Tree.allows, Tree.allowsFields, Constraint.allows, Constraint.allowsAny,
      Kind.admits, Number.isIntegral, FiniteDouble.isIntegral]
  · simp [countOnly, twoAndMore, justTwo, normalize, Tree.normalize, Tree.normalizeField, Constraint.normalize,
      Constraint.isIntegral, Constraint.isIntegralAny, Constraint.isNumeric]
    rw [Json.asInteger_double (n := 2) (by decide +kernel) (by decide)]

/-- The double has the value of its integer, and the key that goes is not declared: the union has seen no fraction. -/
theorem altered_normalize_iff_countOnly : countOnly.validate twoAndMore.value = .valid justTwo ∧
    Json.Altered Number.Rewritten countOnly.Strips [] twoAndMore.value justTwo ∧
    WholeAtUnions countOnly.scope countOnly.root twoAndMore.value := by
  have ha : Json.Altered Number.Rewritten countOnly.Strips [] twoAndMore.value justTwo :=
    .object (.keep (.number (.whole (by decide +kernel))) (.drop ⟨_, .root, rfl⟩ (.nil _)))
  exact ⟨countOnly_validate, ha, (altered_normalize_iff _ _ _ countOnly_validate).1 ha⟩

/-- One and a half. -/
def oneAndHalf : FiniteDouble := ⟨false, 3 * Nat.pow 2 1073, by decide +kernel⟩

def integerOrOneAndHalf : Constraint := .union [.kind .integer, .literal (.number (.finite oneAndHalf))]

/-- **A literal that is not whole loses its fraction next to an integer**: one and a half is valid as `1`. -/
theorem normalize_cuts_fraction : ∃ v, compile (.constraint integerOrOneAndHalf) = .ok v ∧
    v.validate (.number (.double oneAndHalf)) = .valid (.number (.integer 1 (by decide))) ∧
    ¬ Json.Altered Number.Rewritten v.Strips [] (.number (.double oneAndHalf)) (.number (.integer 1 (by decide))) := by
  refine ⟨⟨.leaf integerOrOneAndHalf, none, 100⟩, rfl, (validate_eq_valid_iff _ _ _).2 ⟨?_, ?_⟩, ?_⟩
  · refine (violations_eq_nil_iff _ _).2 ?_
    have hl : (Literal.number (.finite oneAndHalf)).admits (.number (.double oneAndHalf)) = true :=
      Double.beq_self_of_isFinite rfl
    rw [allows, Tree.allows, integerOrOneAndHalf, Constraint.allows, Constraint.allowsAny, Constraint.allowsAny,
      Constraint.allows, Constraint.allows, hl, Bool.true_or, Bool.or_true]
  · have hi : integerOrOneAndHalf.isIntegral = true := rfl
    rw [integerOrOneAndHalf] at hi
    rw [normalize, Tree.normalize, integerOrOneAndHalf, Constraint.normalize, if_pos hi,
      Json.asInteger_double (n := 1) (by decide +kernel) (by decide)]
  · intro h
    cases h with
    | number h => exact absurd h.isIntegral (by decide +kernel)

end Validator

end Assay
