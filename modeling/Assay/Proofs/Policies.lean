import Assay.Proofs.Alteration
import Assay.Proofs.Similarity
import Assay.Proofs.Stripping
/-!
# The order of the policies

One schema compiled to allow undeclared keys, to strip and to reject them becomes similar trees, or one error.  The
three validators are ordered (`Validator.OrderedPolicies`): what strips decides as what allows, what rejects allows less
and makes the same of it, and what strips returns is what allows returns without stripped keys.  The decisions are
compared through unions and references (`Validator.Similar.rel_allows`), the normal forms apart from them, place by
place (`Tree.Similar.deletes`).
-/
namespace Assay

/-- Three times the same error, or three related values. -/
inductive SameResults {α β γ : Type} (S : α → β → γ → Prop) :
    Except SchemaError α → Except SchemaError β → Except SchemaError γ → Prop
  | error (e : SchemaError) : SameResults S (.error e) (.error e) (.error e)
  | ok {a : α} {b : β} {c : γ} : S a b c → SameResults S (.ok a) (.ok b) (.ok c)

theorem SameResult.three {α β γ : Type} {S : α → β → Prop} {T : β → γ → Prop} {U : α → γ → Prop}
    {x : Except SchemaError α} {y : Except SchemaError β} {z : Except SchemaError γ} (hxy : SameResult S x y)
    (hyz : SameResult T y z) (hxz : SameResult U x z) : SameResults (fun a b c => S a b ∧ T b c ∧ U a c) x y z := by
  cases hxy with
  | error e =>
    cases hyz with
    | error _ => exact .error e
  | ok hab =>
    cases hyz with
    | ok hbc =>
      cases hxz with
      | ok hac => exact .ok ⟨hab, hbc, hac⟩

theorem SameResults.imp {α β γ : Type} {S S' : α → β → γ → Prop} {x : Except SchemaError α} {y : Except SchemaError β}
    {z : Except SchemaError γ} (h : SameResults S x y z) (hS : ∀ a b c, S a b c → S' a b c) :
      SameResults S' x y z := by
  cases h with
  | error e => exact .error e
  | ok habc => exact .ok (hS _ _ _ habc)

namespace Tree

variable {P : Policy → Policy → Prop} {defs : Definitions} {root : Tree} {follow follow' : String → Json → Json}
  {p : Path}

/-- Where `t` checks a value, the second normal form is the first without some keys that are stripped. -/
def Deletes (defs : Definitions) (root t : Tree) (normalize normalize' : Json → Json) : Prop :=
  ∀ p v, Checks defs root p t → Json.Altered (· = ·) (Strips defs root) p (normalize v) (normalize' v)

theorem altered_self (x : Json) : Json.Altered (· = ·) (Strips defs root) p x x := .refl (fun _ => rfl) x p

theorem altered_map {normalize normalize' : Json → Json} (items : List Json)
    (h : ∀ i v, Json.Altered (· = ·) (Strips defs root) (p.push (.index i)) (normalize v) (normalize' v)) :
      Json.Altered (· = ·) (Strips defs root) p (.array (items.map normalize)) (.array (items.map normalize')) := by
  refine .array (by rw [List.length_map, List.length_map]) fun i x y hx hy => ?_
  rw [List.getElem?_map, Option.map_eq_some_iff] at hx hy
  obtain ⟨v, hv, rfl⟩ := hx
  obtain ⟨w, hw, rfl⟩ := hy
  cases hv.symm.trans hw
  exact h i v

theorem altered_normalizeEach {ts ts' : List Tree} (hl : ts.length = ts'.length) (items : List Json)
    (h : ∀ i t t' v, ts[i]? = some t → ts'[i]? = some t' →
      Json.Altered (· = ·) (Strips defs root) (p.push (.index i)) (t.normalize follow v) (t'.normalize follow' v)) :
      Json.Altered (· = ·) (Strips defs root) p (.array (normalizeEach follow ts items))
        (.array (normalizeEach follow' ts' items)) := by
  refine .array (by rw [length_normalizeEach, length_normalizeEach]) fun i x y hx hy => ?_
  have hi : i < items.length := by
    have hlen := (List.getElem?_eq_some_iff.1 hx).1
    rwa [length_normalizeEach] at hlen
  have hv : items[i]? = some items[i] := List.getElem?_eq_getElem hi
  cases ht : ts[i]? with
  | some t =>
    obtain ⟨t', ht'⟩ := exists_getElem? hl ht
    rw [getElem?_normalizeEach ht hv] at hx
    rw [getElem?_normalizeEach ht' hv] at hy
    cases hx
    cases hy
    exact h i t t' _ ht ht'
  | none =>
    have ht' : ts'[i]? = none := List.getElem?_eq_none (hl ▸ List.getElem?_eq_none_iff.1 ht)
    rw [getElem?_normalizeEach_of_none ht] at hx
    rw [getElem?_normalizeEach_of_none ht'] at hy
    cases hx.symm.trans hy
    exact altered_self x

end Tree

namespace Constraint

variable {defs : Definitions} {root : Tree} {follow follow' : String → Json → Json}

open Assay.Tree (Deletes altered_self)

mutual

/-- A constraint deletes no more than its references do. -/
theorem deletes (hf : ∀ name, Deletes defs root (.leaf (reference name)) (follow name) (follow' name)) :
    ∀ (c : Constraint), Deletes defs root (.leaf c) (c.normalize follow) (c.normalize follow')
  | kind k, p, v, _ => by rw [normalize, normalize]; exact altered_self _
  | range k min max, p, v, _ => by rw [normalize, normalize]; exact altered_self _
  | format f, p, v, _ => by rw [normalize, normalize]; exact altered_self _
  | literal l, p, v, _ => by rw [normalize, normalize]; exact altered_self _
  | union cs, p, v, _ => by rw [normalize, normalize]; exact altered_self _
  | optional c, p, v, hc => by rw [normalize, normalize]; exact deletes hf c p v hc.inner
  | reference name, p, v, hc => by rw [normalize, normalize]; exact hf name p v hc
  | array c, p, v, hc => by
    cases v with
    | array items =>
      rw [normalize, normalize]
      exact Tree.altered_map items fun i x => deletes hf c _ x (hc.leafItem i)
    | _ =>
      simp only [normalize]
      exact altered_self _
  | tuple cs, p, v, hc => by
    cases v with
    | array items =>
      rw [normalize, normalize, ← Tree.normalizeEach_map_leaf, ← Tree.normalizeEach_map_leaf]
      refine Tree.altered_normalizeEach rfl items fun i t t' x ht ht' => ?_
      cases ht.symm.trans ht'
      rw [List.getElem?_map, Option.map_eq_some_iff] at ht
      obtain ⟨c, hci, rfl⟩ := ht
      rw [Tree.normalize, Tree.normalize]
      exact deletes_of_mem hf cs c (List.mem_of_getElem? hci) _ x (hc.leafPlace hci)
    | _ =>
      simp only [normalize]
      exact altered_self _

theorem deletes_of_mem (hf : ∀ name, Deletes defs root (.leaf (reference name)) (follow name) (follow' name)) :
    ∀ (cs : List Constraint), ∀ c ∈ cs, Deletes defs root (.leaf c) (c.normalize follow) (c.normalize follow')
  | d :: cs, c, hc => by
    rcases List.mem_cons.1 hc with hc | hc
    · rw [hc]
      exact deletes hf d
    · exact deletes_of_mem hf cs c hc

end

end Constraint

namespace Tree

variable {P : Policy → Policy → Prop} {defs : Definitions} {root : Tree} {follow follow' : String → Json → Json}

/-- Policies that agree, or of which the second strips. -/
def StripsOrAgrees (P : Policy → Policy → Prop) : Prop := ∀ p p', P p p' → p = p' ∨ p' = .strip

/-- The entries that are left of an object are those that the other leaves, without some that are stripped. -/
theorem alteredEntries_of_stripsOrAgrees {fields fields' : List Field} {policy policy' : Policy} {p : Path}
    (hp : policy = policy' ∨ policy' = .strip) (hc : Checks defs root p (object fields' policy'))
    (hf : ∀ k, Option.Rel (fun f f' : Field => Deletes defs root f'.node (f.node.normalize follow)
      (f'.node.normalize follow')) (fields.find? (·.name == k)) (fields'.find? (·.name == k))) :
      ∀ (entries : List (String × Json)), Json.AlteredEntries (· = ·) (Strips defs root) p
        (normalizeEntries follow fields policy entries) (normalizeEntries follow' fields' policy' entries)
  | [] => .nil p
  | (k, x) :: entries => by
    have ih := alteredEntries_of_stripsOrAgrees hp hc hf entries
    have hk := hf k
    rw [normalizeEntries_cons, normalizeEntries_cons]
    generalize fields.find? (·.name == k) = found at hk ⊢
    cases hfind : fields'.find? (·.name == k) with
    | some f' =>
      rw [hfind] at hk
      cases hk with
      | some hd => exact .keep (hd _ x (hc.field hfind)) ih
    | none =>
      rw [hfind] at hk
      cases hk
      dsimp only
      by_cases hs' : policy' = .strip
      · have hgone : Strips defs root p k := ⟨fields', hs' ▸ hc, declares_eq_false_iff.2 hfind⟩
        rw [if_pos hs']
        by_cases hs : policy = .strip
        · rw [if_pos hs]
          exact ih
        · rw [if_neg hs]
          exact .drop hgone ih
      · obtain rfl : policy = policy' := hp.resolve_right hs'
        rw [if_neg hs', if_neg hs']
        exact .keep (altered_self x) ih

mutual

/-- **Where policies agree or strip, the second of two similar trees deletes keys that are stripped**, and nothing else,
if references do not. -/
theorem Similar.deletes (hP : StripsOrAgrees P)
    (hf : ∀ name, Deletes defs root (leaf (.reference name)) (follow name) (follow' name)) :
    ∀ {t t' : Tree}, Similar P t t' → Deletes defs root t' (t.normalize follow) (t'.normalize follow')
  | _, _, .leaf c, p, v, hc => by
    rw [normalize, normalize]
    exact c.deletes hf p v hc
  | _, _, .leafArray h, p, v, hc => by
    cases v with
    | array items =>
      rw [normalize, normalize, Constraint.normalize]
      refine altered_map items fun i x => ?_
      have ih := h.deletes hP hf _ x (hc.item i)
      rwa [normalize] at ih
    | _ =>
      simp only [normalize, Constraint.normalize]
      exact altered_self _
  | _, _, .leafTuple h, p, v, hc => by
    cases v with
    | array items =>
      rw [normalize, normalize, Constraint.normalize, ← normalizeEach_map_leaf]
      refine altered_normalizeEach h.length_eq items fun i t t' x ht ht' => ?_
      exact h.deletes hP hf i t t' ht ht' _ x (hc.place ht')
    | _ =>
      simp only [normalize, Constraint.normalize]
      exact altered_self _
  | _, _, .object hp h, p, v, hc => by
    cases v with
    | object entries =>
      rw [normalize_object, normalize_object]
      exact .object (alteredEntries_of_stripsOrAgrees (hP _ _ hp) hc (h.deletes hP hf) entries)
    | _ =>
      simp only [normalize]
      exact altered_self _
  | _, _, .array h, p, v, hc => by
    cases v with
    | array items =>
      rw [normalize, normalize]
      exact altered_map items fun i x => h.deletes hP hf _ x (hc.item i)
    | _ =>
      simp only [normalize]
      exact altered_self _
  | _, _, .tuple h, p, v, hc => by
    cases v with
    | array items =>
      rw [normalize, normalize]
      refine altered_normalizeEach h.length_eq items fun i t t' x ht ht' => ?_
      exact h.deletes hP hf i t t' ht ht' _ x (hc.place ht')
    | _ =>
      simp only [normalize]
      exact altered_self _

theorem SimilarFields.deletes (hP : StripsOrAgrees P)
    (hf : ∀ name, Deletes defs root (leaf (.reference name)) (follow name) (follow' name)) :
    ∀ {fields fields' : List Field}, SimilarFields P fields fields' → ∀ (k : String),
      Option.Rel (fun f f' : Field => Deletes defs root f'.node (f.node.normalize follow) (f'.node.normalize follow'))
        (fields.find? (·.name == k)) (fields'.find? (·.name == k))
  | _, _, .nil, _ => .none
  | _, _, .cons h hs, k => by
    rw [List.find?_cons, List.find?_cons]
    dsimp only
    split
    · exact .some (h.deletes hP hf)
    · exact hs.deletes hP hf k

theorem SimilarEach.deletes (hP : StripsOrAgrees P)
    (hf : ∀ name, Deletes defs root (leaf (.reference name)) (follow name) (follow' name)) :
    ∀ {ts ts' : List Tree}, SimilarEach P ts ts' → ∀ (i : Nat) (t t' : Tree), ts[i]? = some t → ts'[i]? = some t' →
      Deletes defs root t' (t.normalize follow) (t'.normalize follow')
  | _, _, .nil, _, _, _, ht, _ => by cases ht
  | _, _, .cons h hs, i, t, t', ht, ht' => by
    cases i with
    | zero =>
      cases ht
      cases ht'
      exact h.deletes hP hf
    | succ i => exact hs.deletes hP hf i t t' ht ht'

end

end Tree

open Assay.Tree (Deletes StripsOrAgrees)

/-- References to similar definitions delete keys that are stripped, by induction on the budget. -/
theorem Definitions.Rel.deletes {P : Policy → Policy → Prop} (hP : StripsOrAgrees P) {defs defs' : Definitions}
    (h : Rel (Tree.Similar P) defs defs') (root : Tree) : ∀ (budget : Nat) (name : String),
      Deletes defs' root (.leaf (.reference name)) (defs.normalize budget name) (defs'.normalize budget name)
  | 0, _, _, v, _ => Tree.altered_self v
  | budget + 1, name, p, v, hc => by
    have hl := h.lookup name
    rw [normalize, normalize]
    generalize defs.lookup name = found at hl ⊢
    cases hl' : defs'.lookup name with
    | none =>
      rw [hl'] at hl
      cases hl
      exact Tree.altered_self v
    | some t =>
      rw [hl'] at hl
      cases hl with
      | some ht => exact ht.deletes hP (h.deletes hP root budget) p v (hc.definition hl')

namespace Validator

/-- **The normal forms of two similar validators**, of which the second strips where policies do not agree. -/
theorem Similar.altered_normalize {P : Policy → Policy → Prop} (hP : StripsOrAgrees P) {v w : Validator}
    (h : v.Similar P w) (x : Json) : Json.Altered (· = ·) w.Strips [] (v.normalize x) (w.normalize x) := by
  unfold normalize
  rw [h.maxDepth]
  exact h.root.deletes hP (h.scope.deletes hP w.root w.maxDepth) [] x .root

/-- **How the validators of one schema compare** that allow undeclared keys, strip and reject them. -/
structure OrderedPolicies (allowing stripping rejecting : Validator) : Prop where
  allows_eq : ∀ x, allowing.allows x = stripping.allows x
  /-- What is not rejected is valid three times, with one normal form. -/
  not_rejected : ∀ x : Document, rejecting.allows x.value = true → ∃ n, allowing.validate x.value = .valid n ∧
    stripping.validate x.value = .valid n ∧ rejecting.validate x.value = .valid n
  /-- What stripping returns is what allowing returns, numbers included, without keys that are stripped; the other keys
  are in their order. -/
  stripped : ∀ x m, stripping.validate x = .valid m →
    ∃ n, allowing.validate x = .valid n ∧ Json.Altered (· = ·) stripping.Strips [] n m

end Validator

/-- The policies are the same, or `new` stands where `old` stood. -/
def Policy.Replaced (old new p p' : Policy) : Prop := p = p' ∨ p = old ∧ p' = new

open Policy (Replaced)

/-- Rejecting in place of another policy allows less, and makes the same of what it allows. -/
theorem Validator.Similar.of_rejecting {old : Policy} {v w : Validator} (h : v.Similar (Replaced old .reject) w)
    {x : Document} (hx : w.allows x.value = true) : v.validate x.value = .valid (w.normalize x.value) := by
  refine validate_eq_valid_iff_allows.2 ⟨?_, ?_⟩
  · refine h.rel_allows boolCongruence_imp.flip (fun p p' hp => ?_) x.value hx
    rcases hp with rfl | ⟨rfl, rfl⟩
    · exact id
    · exact fun hr => absurd hr (by decide)
  · refine (h.normalize_eq (fun p p' hp => ?_) hx).symm
    exact hp.imp_right And.right

theorem Validator.orderedPolicies_of_similar {allowing stripping rejecting : Validator}
    (has : allowing.Similar (Replaced .allow .strip) stripping)
    (hsr : stripping.Similar (Replaced .strip .reject) rejecting)
    (har : allowing.Similar (Replaced .allow .reject) rejecting) : OrderedPolicies allowing stripping rejecting where
  allows_eq x := by
    refine has.rel_allows boolCongruence_eq (fun p p' hp => ?_) x
    rcases hp with rfl | ⟨rfl, rfl⟩ <;> rfl
  not_rejected x hx := ⟨rejecting.normalize x.value, har.of_rejecting hx, hsr.of_rejecting hx,
    validate_eq_valid_iff_allows.2 ⟨hx, rfl⟩⟩
  stripped x m hm := by
    obtain ⟨hx, rfl⟩ := validate_eq_valid_iff_allows.1 hm
    have hallows := has.rel_allows boolCongruence_eq (fun p p' hp => by rcases hp with rfl | ⟨rfl, rfl⟩ <;> rfl) x
    refine ⟨allowing.normalize x, validate_eq_valid_iff_allows.2 ⟨hallows.trans hx, rfl⟩, ?_⟩
    exact has.altered_normalize (fun p p' hp => hp.imp_right And.right) x

section Compile

/-- Two policies in the settings make two similar trees of one description. -/
theorem Policy.congruence_replaced (old new : Policy) : Tree.Congruence old new (Tree.Similar (Replaced old new)) :=
  Tree.Similar.congruence (fun _ => Or.inl rfl) (Or.inr ⟨rfl, rfl⟩)

theorem Compiler.similar_compile_self {c c' : Compiler} (hc : c.Reached) (hc' : c'.Reached)
    (hm : c.options.maxDepth = c'.options.maxDepth) (d : Description) :
      SameResult (Validator.Similar (Replaced c.options.policy c'.options.policy)) (c.compile d).1 (c'.compile d).1 :=
  similar_compile hc hc' hm (d.lowersAlike_self (Policy.congruence_replaced _ _) sound_readCached.alike)

theorem Scope.similar_compile_self (s : Scope) (options options' : Options)
    (hm : options.maxDepth = options'.maxDepth) :
      SameResult (CompiledScope.Rel s.names (Validator.Similar (Replaced options.policy options'.policy)))
        (s.compile options) (s.compile options') :=
  similar_compile hm (lowersAlike_self (Policy.congruence_replaced _ _) s.definitions)

end Compile

namespace Validator

/-- **The policies are ordered.**  A description and a scope compile alike under all three, with one error or to
validators that are ordered, those of a scope under each of its names. -/
theorem policies_ordered (maxDepth : Nat) :
    (∀ (allowing stripping rejecting : Compiler) (d : Description), allowing.Reached → stripping.Reached →
      rejecting.Reached → allowing.options = ⟨.allow, maxDepth⟩ → stripping.options = ⟨.strip, maxDepth⟩ →
        rejecting.options = ⟨.reject, maxDepth⟩ → SameResults OrderedPolicies (allowing.compile d).1
          (stripping.compile d).1 (rejecting.compile d).1) ∧
    ∀ (s : Scope), SameResults (fun allowing stripping rejecting => ∀ name ∈ s.names, ∃ v w u,
        allowing.validator? name = some v ∧ stripping.validator? name = some w ∧ rejecting.validator? name = some u ∧
          OrderedPolicies v w u)
      (s.compile ⟨.allow, maxDepth⟩) (s.compile ⟨.strip, maxDepth⟩) (s.compile ⟨.reject, maxDepth⟩) := by
  constructor
  · intro a s r d ha hs hr hao hso hro
    have has := Compiler.similar_compile_self ha hs (by rw [hao, hso]) d
    have hsr := Compiler.similar_compile_self hs hr (by rw [hso, hro]) d
    have har := Compiler.similar_compile_self ha hr (by rw [hao, hro]) d
    rw [hao, hso] at has
    rw [hso, hro] at hsr
    rw [hao, hro] at har
    exact (has.three hsr har).imp fun _ _ _ h => orderedPolicies_of_similar h.1 h.2.1 h.2.2
  · intro s
    have has := s.similar_compile_self ⟨.allow, maxDepth⟩ ⟨.strip, maxDepth⟩ rfl
    have hsr := s.similar_compile_self ⟨.strip, maxDepth⟩ ⟨.reject, maxDepth⟩ rfl
    have har := s.similar_compile_self ⟨.allow, maxDepth⟩ ⟨.reject, maxDepth⟩ rfl
    refine (has.three hsr har).imp fun allowing stripping rejecting h name hn => ?_
    obtain ⟨v, w, hv, hw, hvw⟩ := h.1 name hn
    obtain ⟨w', u, hw', hu, hwu⟩ := h.2.1 name hn
    obtain ⟨v', u', hv', hu', hvu⟩ := h.2.2 name hn
    obtain rfl : w = w' := Option.some.inj (hw.symm.trans hw')
    obtain rfl : v = v' := Option.some.inj (hv.symm.trans hv')
    obtain rfl : u = u' := Option.some.inj (hu.symm.trans hu')
    exact ⟨v, w, u, hv, hw, hu, orderedPolicies_of_similar hvw hwu hvu⟩

/-- An address with a key too many is kept, stripped and rejected, whether it stands alone or in a person. -/
theorem policies_ordered_oslo :
    (∃ allowing stripping rejecting, OrderedPolicies allowing stripping rejecting ∧
      stripping = ⟨addressTree .strip, none, 100⟩ ∧ allowing.validate oslo = .valid oslo ∧
        stripping.validate oslo = .valid justOslo ∧ rejecting.allows oslo = false ∧
        rejecting.allows justOslo = true) ∧
      OrderedPolicies (personBy .allow) (personBy .strip) (personBy .reject) := by
  constructor
  · have h := (policies_ordered 100).1 ⟨⟨.allow, 100⟩, []⟩ ⟨⟨.strip, 100⟩, []⟩ ⟨⟨.reject, 100⟩, []⟩ address (.new _)
      (.new _) (.new _) rfl rfl rfl
    change SameResults OrderedPolicies (.ok ⟨addressTree .allow, none, 100⟩) (.ok ⟨addressTree .strip, none, 100⟩)
      (.ok ⟨addressTree .reject, none, 100⟩) at h
    cases h with
    | ok h => exact ⟨_, _, _, h, rfl, rfl, rfl, rfl, rfl⟩
  · have h := (policies_ordered 100).2 people
    rw [people_compile, people_compile, people_compile] at h
    cases h with
    | ok h =>
      obtain ⟨v, w, u, hv, hw, hu, h⟩ := h "Person" (by decide)
      cases hv
      cases hw
      cases hu
      exact h

end Validator

end Assay
