import Assay.Proofs.Pointing
/-!
# The order of a report

No violation of a report lies on the way to another one, and they come in the order of the schema: where the paths of
two of them part (`Validator.Before`), the first one has the smaller index, or the key that comes first in the object
which checks the object there (`KeyBefore`).  The parts of a value come in this order, a mismatch stands alone, and
below one part the order is that of its own diagnosis.
-/
namespace Assay

/-- **The order of keys under an object**: those that it declares in the order of their declaration, and after them
those that it does not declare, in the order of the entries. -/
inductive KeyBefore (fields : List Field) (entries : List (String × Json)) : String → String → Prop
  | declared {k k' : String} : [k, k'].Sublist (fields.map (·.name)) → KeyBefore fields entries k k'
  | across {k k' : String} : declares fields k = true → declares fields k' = false → KeyBefore fields entries k k'
  | extra {k k' : String} : [k, k'].Sublist (entries.map (·.1)) → declares fields k = false →
    declares fields k' = false → KeyBefore fields entries k k'

theorem ne_of_sublist {α : Type} {a b : α} {l : List α} (hl : l.Nodup) (h : [a, b].Sublist l) : a ≠ b := by
  have hab := hl.sublist h
  simpa using hab

theorem KeyBefore.ne {fields : List Field} {entries : List (String × Json)} {k k' : String}
    (hf : (fields.map (·.name)).Nodup) (he : (entries.map (·.1)).Nodup) (h : KeyBefore fields entries k k') :
      k ≠ k' := by
  cases h with
  | declared h => exact ne_of_sublist hf h
  | across h h' =>
    rintro rfl
    rw [h] at h'
    cases h'
  | extra h _ _ => exact ne_of_sublist he h

namespace Validator

/-- The order of two steps from what stands at a path: indices by size, and keys by the object that checks the object
there, of which there is one (`Tree.Checks.object_unique`). -/
inductive StepBefore (v : Validator) (x : Json) (q : Path) : Segment → Segment → Prop
  | index {i j : Nat} : i < j → StepBefore v x q (.index i) (.index j)
  | key {fields : List Field} {policy : Policy} {entries : List (String × Json)} {k k' : String} :
    v.Checks q (.object fields policy) → x.at? q = some (.object entries) → KeyBefore fields entries k k' →
      StepBefore v x q (.key k) (.key k')

/-- The order of two keys is the one under the object that checks what stands there. -/
theorem StepBefore.keyBefore {v : Validator} {x : Json} {q : Path} {k k' : String} {fields : List Field}
    {policy : Policy} {entries : List (String × Json)} (h : v.StepBefore x q (.key k) (.key k'))
    (hc : v.Checks q (.object fields policy)) (hx : x.at? q = some (.object entries)) :
      KeyBefore fields entries k k' := by
  cases h with
  | key hc' hx' hk =>
    obtain ⟨rfl, -⟩ := hc'.object_unique hc
    cases hx'.symm.trans hx
    exact hk

/-- **Two paths part, and at the step where they part the first one comes before the other.** -/
def Before (v : Validator) (x : Json) (p p' : Path) : Prop :=
  ∃ q s s' r r', p = q ++ s :: r ∧ p' = q ++ s' :: r' ∧ s ≠ s' ∧ v.StepBefore x q s s'

theorem Before.not_prefix {v : Validator} {x : Json} {p p' : Path} (h : v.Before x p p') :
    ¬ p <+: p' ∧ ¬ p' <+: p := by
  obtain ⟨q, s, s', r, r', rfl, rfl, hne, -⟩ := h
  constructor
  · intro hp
    rw [List.prefix_append_right_inj, List.cons_prefix_cons] at hp
    exact hne hp.1
  · intro hp
    rw [List.prefix_append_right_inj, List.cons_prefix_cons] at hp
    exact hne hp.1.symm

end Validator

namespace Tree

theorem step_of_part? {entries : List (String × Json)} {f : Field} {e : Segment × Part} (h : part? entries f = some e) :
    e.1 = .key f.name := by
  rcases part?_cases h with ⟨v, -, rfl⟩ | ⟨-, -, rfl⟩ <;> rfl

/-- The items of an array come by their indices. -/
theorem pairwise_itemParts (ts : List Tree) (items : List Json) :
    (itemParts ts items 0).Pairwise fun e e' => ∃ i j, e.1 = .index i ∧ e'.1 = .index j ∧ i < j := by
  unfold itemParts
  rw [List.pairwise_map]
  have hlt : ((ts.zip items).zipIdx.map Prod.snd).Pairwise (· < ·) := by
    rw [List.zipIdx_map_snd]
    exact List.pairwise_lt_range'
  rw [List.pairwise_map] at hlt
  exact hlt.imp fun {a b} h => ⟨a.2, b.2, rfl, rfl, h⟩

/-- The parts of an object come by their keys. -/
theorem pairwise_parts_object (fields : List Field) (policy : Policy) (entries : List (String × Json)) :
    ((object fields policy).parts (.object entries)).Pairwise fun e e' =>
      ∃ k k', e.1 = .key k ∧ e'.1 = .key k' ∧ KeyBefore fields entries k k' := by
  have hextra : ∀ e ∈ extraParts fields entries, ∃ k, e.1 = .key k ∧ declares fields k = false := by
    intro e he
    obtain ⟨⟨k, v⟩, hm, rfl⟩ := List.mem_map.1 he
    exact ⟨k, rfl, by simpa using (List.mem_filter.1 hm).2⟩
  have hextras : (extraParts fields entries).Pairwise fun e e' =>
      ∃ k k', e.1 = .key k ∧ e'.1 = .key k' ∧ KeyBefore fields entries k k' := by
    unfold extraParts
    rw [List.pairwise_map, List.pairwise_iff_forall_sublist]
    intro a b hab
    have ha := (List.mem_filter.1 (hab.subset List.mem_cons_self)).2
    have hb := (List.mem_filter.1 (hab.subset (List.mem_cons_of_mem _ List.mem_cons_self))).2
    have hs : [a.1, b.1].Sublist (entries.map (·.1)) := (hab.trans List.filter_sublist).map Prod.fst
    exact ⟨a.1, b.1, rfl, rfl, .extra hs (by simpa using ha) (by simpa using hb)⟩
  rw [parts, List.pairwise_append]
  refine ⟨?_, ?_, ?_⟩
  · rw [List.pairwise_filterMap, List.pairwise_iff_forall_sublist]
    intro f g hfg a ha b hb
    exact ⟨f.name, g.name, step_of_part? ha, step_of_part? hb, .declared (hfg.map Field.name)⟩
  · split
    · exact hextras
    · exact List.Pairwise.nil
  · intro a ha b hb
    obtain ⟨f, hf, ha⟩ := List.mem_filterMap.1 ha
    have hd : declares fields f.name = true := List.any_eq_true.2 ⟨f, hf, beq_self_eq_true _⟩
    split at hb
    · obtain ⟨k, hk, hd'⟩ := hextra b hb
      exact ⟨f.name, k, step_of_part? ha, hk, .across hd hd'⟩
    · cases hb

variable {v : Validator} {x : Json} {t : Tree}

/-- **The parts of a value come in the order of its schema.** -/
theorem Meets.pairwise_parts {p : Path} {y : Json} (hm : Meets v.scope v.root x p t y) (ht : t.distinctFields = true) :
    (t.parts y).Pairwise fun e e' => e.1 ≠ e'.1 ∧ v.StepBefore x p e.1 e'.1 := by
  cases y with
  | array items =>
    rw [parts]
    cases t.places? items.length with
    | none => exact List.Pairwise.nil
    | some ts =>
      refine (pairwise_itemParts ts items).imp fun {a b} h => ?_
      obtain ⟨i, j, hi, hj, hij⟩ := h
      rw [hi, hj]
      exact ⟨fun he => Nat.ne_of_lt hij (Segment.index.inj he), .index hij⟩
  | object entries =>
    cases t with
    | object fields policy =>
      refine (pairwise_parts_object fields policy entries).imp fun {a b} h => ?_
      obtain ⟨k, k', hk, hk', hb⟩ := h
      rw [hk, hk']
      have hne := hb.ne (distinctFields_object.1 ht).1 (Json.distinctKeys_object.1 hm.distinct).1
      exact ⟨fun he => hne (Segment.key.inj he), .key hm.checks hm.found hb⟩
    | _ => exact List.Pairwise.nil
  | _ => exact List.Pairwise.nil

/-- **By the rules, violations are found in the order of the schema.** -/
theorem Diagnosis.pairwise_before (hv : v.DistinctFields) {check : Json → List Violation}
    (h : Diagnosis v.scope v.maxDepth t check) : ∀ (p : Path) (y : Json), Meets v.scope v.root x p t y →
      (check y).Pairwise fun e e' => v.Before x (e.below p).path (e'.below p).path := by
  induction h with
  | @parts t allow check _ _ ih =>
    intro p y hm
    have ht : t.distinctFields = true := hm.checks.distinctFields hv.root hv.scope
    rcases mismatch_cases allow t y with hn | ⟨hn, e, he, -⟩
    · -- Two violations below one part are in the order of its diagnosis, and else in the order of their parts.
      show (t.mismatch allow y ++ _).Pairwise _
      rw [hn, List.nil_append, List.pairwise_flatMap]
      refine ⟨fun ⟨s, part⟩ hp => ?_, (hm.pairwise_parts ht).imp fun {a b} h e he e' he' => ?_⟩
      · unfold Part.found
        rw [List.pairwise_map]
        simp only [Violation.below_under]
        cases part with
        | checked u w => exact ih y s u w (hasPart_of_mem hp) _ w (hm.part ht (hasPart_of_mem hp))
        | missing u => exact List.pairwise_singleton _ _
        | extra w => exact List.pairwise_singleton _ _
      · obtain ⟨e, -, rfl⟩ := List.mem_map.1 he
        obtain ⟨e', -, rfl⟩ := List.mem_map.1 he'
        exact ⟨p, a.1, b.1, e.path, e'.path, rfl, rfl, h.1, h.2⟩
    · show (t.mismatch allow y ++ _).Pairwise _
      rw [he, hn]
      exact List.pairwise_singleton _ _
  | optional _ ih => exact fun p y hm => ih p y hm.inner
  | definition hl _ ih => exact fun p y hm => ih p y (hm.definition hl)
  | unknown _ => exact fun _ _ _ => List.pairwise_singleton _ _
  | tooDeep _ => exact fun _ _ _ => List.pairwise_singleton _ _

end Tree

namespace Validator

/-- **Reports are free of prefixes and in the order of the schema.** -/
theorem report_ordered (v : Validator) (hv : v.Compiled) (x : Document) (report : Report)
    (h : v.validate x.value = .invalid report) : report.toList.Pairwise fun e e' =>
      (¬ e.path <+: e'.path ∧ ¬ e'.path <+: e.path) ∧ v.Before x.value e.path e'.path := by
  rw [← violations_of_validate_invalid h]
  have hb := v.diagnosis.pairwise_before hv.distinctFields [] x.value (.start x)
  exact hb.imp fun {_ _} h => ⟨h.not_prefix, h⟩

/-- The five violations of an order without an id come in the order of its fields, and the key too many last. -/
theorem report_ordered_rushOrder : orderValidator.validate rushOrder.value = .invalid rushReport ∧
    rushReport.toList.Pairwise fun e e' => (¬ e.path <+: e'.path ∧ ¬ e'.path <+: e.path) ∧
      orderValidator.Before rushOrder.value e.path e'.path :=
  ⟨validate_rushOrder, report_ordered _ compiled_orderValidator _ _ validate_rushOrder⟩

end Validator

end Assay
