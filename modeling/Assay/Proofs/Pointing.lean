import Assay.Proofs.Decision
import Assay.Proofs.Diagnosis
/-!
# Violations point at what they describe

Each violation of a report describes the value that its path leads to, or the key that is missing there
(`Validator.Describes`).  Of a value it shows the JSON text, cut after 64 characters (`Json.Shown`).  A check that
starts at a path describes what it finds as seen from the root, and each rule of diagnosis keeps this; references go on
to another definition at the same path.
-/
namespace Assay

/-- **The text that a violation shows of a value**: its JSON text if that has at most 64 characters, and else the first
64 of them and an ellipsis. -/
inductive Json.Shown (y : Json) : String → Prop
  | whole (h : y.render.length ≤ 64) : Shown y y.render
  | cut {first rest : String} (h : y.render = first ++ rest) (hf : first.length = 64) (hr : rest ≠ "") :
    Shown y (first ++ "…")

theorem Json.shown_summary (y : Json) : y.Shown y.summary := by
  unfold summary summaryLimit
  dsimp only
  split
  · rename_i h
    exact .whole h
  · rename_i h
    have hlt : 64 < y.render.toList.length := Nat.lt_of_not_le h
    have hcut : y.render = String.ofList (y.render.toList.take 64) ++ String.ofList (y.render.toList.drop 64) := by
      rw [← String.ofList_append, List.take_append_drop, String.ofList_toList]
    have hlen : (String.ofList (y.render.toList.take 64)).length = 64 := by
      rw [String.length_ofList, List.length_take, Nat.min_eq_left (Nat.le_of_lt hlt)]
    refine .cut hcut hlen fun hr => ?_
    have hnil := congrArg String.toList hr
    rw [String.toList_ofList] at hnil
    exact Nat.not_le_of_lt hlt (List.drop_eq_nil_iff.1 hnil)

namespace Validator

/-- **What the violations of a value say of it**, each by the tree that checks what stands where it points. -/
inductive Describes (v : Validator) (x : Json) : Violation → Prop
  /-- The path leads to a required key which the object there does not have. -/
  | missing {q : Path} {fields : List Field} {policy : Policy} {f : Field} {entries : List (String × Json)} :
    v.Checks q (.object fields policy) → f ∈ fields → f.optional = false → x.at? q = some (.object entries) →
      entries.lookup f.name = none →
      Describes v x ⟨q.push (.key f.name), .missingRequiredField, f.node.expected, "missing"⟩
  /-- The path leads to the value of a key which the object that checks its parent does not declare. -/
  | extra {q : Path} {fields : List Field} {k text : String} {y : Json} :
    v.Checks q (.object fields .reject) → declares fields k = false → x.at? (q.push (.key k)) = some y →
      y.Shown text → Describes v x ⟨q.push (.key k), .extraField, "absent (undeclared key)", text⟩
  /-- The path leads to an array whose length is not that of the tuple. -/
  | length {p : Path} {t : Tree} {length : Nat} {items : List Json} :
    v.Checks p t → t.tupleLength? = some length → x.at? p = some (.array items) → items.length ≠ length →
      Describes v x
        ⟨p, .typeMismatch, expectedTuple length, "array of length " ++ decimalDigits items.length⟩
  /-- The path leads to a value that is no array where there is to be a tuple. -/
  | notArray {p : Path} {t : Tree} {length : Nat} {y : Json} {text : String} :
    v.Checks p t → t.tupleLength? = some length → x.at? p = some y → y.length? = none → y.Shown text →
      Describes v x ⟨p, .typeMismatch, expectedTuple length, text⟩
  /-- The path leads to a value which a tree that is no tuple refuses as a whole. -/
  | whole {p : Path} {t : Tree} {y : Json} {text : String} :
    v.Checks p t → t.tupleLength? = none → x.at? p = some y → y.Shown text →
      Describes v x ⟨p, t.rule, t.expected, text⟩
  /-- The path leads to a value that was to be checked by a definition which there is not. -/
  | unknown {p : Path} {name text : String} {y : Json} :
    v.Checks p (.leaf (.reference name)) → v.scope.lookup name = none → x.at? p = some y → y.Shown text →
      Describes v x ⟨p, .typeMismatch, "definition '" ++ name ++ "'", text⟩
  /-- The path leads to a value that was to be checked by a definition past the limit. -/
  | tooDeep {p : Path} {name : String} {t : Tree} {y : Json} :
    v.Checks p (.leaf (.reference name)) → v.scope.lookup name = some t → x.at? p = some y →
      Describes v x ⟨p, .depthExceeded, name ++ " within " ++ decimalDigits v.maxDepth ++ " nested references",
        "reference depth " ++ decimalDigits (v.maxDepth + 1)⟩

end Validator

namespace Tree

variable {v : Validator} {x : Json} {t : Tree}

theorem tupleMismatch_of_length?_eq_none {y : Json} (h : y.length? = none) (length : Nat) :
    tupleMismatch length y = .ofValue .typeMismatch (expectedTuple length) y := by
  cases y with
  | array items => cases h
  | _ => rfl

theorem Mismatch.describes {p : Path} {y : Json} {e : Violation} (hm : Meets v.scope v.root x p t y)
    (h : Mismatch t y e) : v.Describes x (e.below p) := by
  rw [Violation.below_of_path h.path]
  cases h with
  | tuple hl hy =>
    cases hn : y.length? with
    | none =>
      rw [tupleMismatch_of_length?_eq_none hn]
      exact .notArray hm.checks hl hm.found hn y.shown_summary
    | some n =>
      obtain ⟨items, rfl, rfl⟩ := Json.length?_eq_some_iff.1 hn
      exact .length hm.checks hl hm.found fun he => hy (hn.trans (congrArg some he))
  | whole hl => exact .whole hm.checks hl hm.found y.shown_summary

/-- **By the rules, every violation found at a path describes what stands there.** -/
theorem Diagnosis.describes (hv : v.DistinctFields) {check : Json → List Violation}
    (h : Diagnosis v.scope v.maxDepth t check) : ∀ (p : Path) (y : Json), Meets v.scope v.root x p t y →
      ∀ e ∈ check y, v.Describes x (e.below p) := by
  induction h with
  | @parts t allow check _ _ ih =>
    intro p y hm e he
    have ht : t.distinctFields = true := hm.checks.distinctFields hv.root hv.scope
    rcases List.mem_append.1 he with he | he
    · exact (mismatch_of_mem he).describes hm
    · obtain ⟨⟨s, part⟩, hp, he⟩ := List.mem_flatMap.1 he
      obtain ⟨e', he', rfl⟩ := List.mem_map.1 he
      rw [Violation.below_under]
      have hp := hasPart_of_mem hp
      cases part with
      | checked u w => exact ih y s u w hp _ w (hm.part ht hp) e' he'
      | missing u =>
        rw [List.mem_singleton.1 he', Violation.below_of_path rfl]
        cases hp with
        | missing hf ho hl => exact .missing hm.checks hf ho hm.found hl
      | extra w =>
        rw [List.mem_singleton.1 he', Violation.below_of_path rfl]
        cases hp with
        | extra hk hw =>
          have hl := lookup_of_mem (Json.distinctKeys_object.1 hm.distinct).1 hw
          exact .extra hm.checks hk ((Json.at?_push_of hm.found _).trans hl) w.shown_summary
  | optional _ ih => exact fun p y hm => ih p y hm.inner
  | definition hl _ ih => exact fun p y hm => ih p y (hm.definition hl)
  | unknown hl =>
    intro p y hm e he
    rw [List.mem_singleton.1 he, Violation.below_of_path rfl]
    exact .unknown hm.checks hl hm.found y.shown_summary
  | tooDeep hl =>
    intro p y hm e he
    rw [List.mem_singleton.1 he, Violation.below_of_path rfl]
    exact .tooDeep hm.checks hl hm.found

end Tree

namespace Validator

/-- **Every violation of a report describes what its path leads to.** -/
theorem report_describes (v : Validator) (hv : v.Compiled) (x : Document) (report : Report)
    (h : v.validate x.value = .invalid report) : ∀ e ∈ report.toList, v.Describes x.value e := by
  intro e he
  rw [← violations_of_validate_invalid h] at he
  exact v.diagnosis.describes hv.distinctFields [] x.value (.start x) e he

/-- Orders, each with the one before it if there is one. -/
def orders : Scope where
  definitions := [("Order", .object [⟨"id", .constraint (.kind .integer), false⟩,
    ⟨"size", .constraint (.tuple [.kind .number, .kind .number]), true⟩,
    ⟨"after", .constraint (.reference "Order"), true⟩] none)]

def orderTree : Tree :=
  .object [⟨"id", false, .leaf (.kind .integer)⟩, ⟨"size", true, .leaf (.tuple [.kind .number, .kind .number])⟩,
    ⟨"after", true, .leaf (.reference "Order")⟩] .reject

/-- Orders without other keys, of which each may have one before it and no more. -/
def orderValidator : Validator := ⟨orderTree, some [("Order", orderTree)], 1⟩

theorem orders_compile : orders.compile ⟨.reject, 1⟩ = .ok ⟨[("Order", orderTree)], 1⟩ := rfl

theorem compiled_orderValidator : orderValidator.Compiled := by
  have he : ∀ e ∈ orders.definitions, ∀ u ∈ e.2.embedded, u.Compiled :=
    List.forall_mem_singleton.2 fun _ h => by
      simp [Description.embedded, Description.embeddedFields] at h
  exact .ofScope he orders_compile (show CompiledScope.validator? _ "Order" = some orderValidator from rfl)

/-- An order without an id, of the wrong size, after two others, and with a note that is undeclared and long. -/
def rushOrder : Document where
  value := .object
    [("note", .string "Leave it behind the green bins at the side door, and ring the bell twice."),
      ("size", .array [.null]), ("after", .object [("after", .object []), ("id", .string "1")])]

def rushReport : Report where
  first := ⟨[.key "id"], .missingRequiredField, "number.integer", "missing"⟩
  rest := [⟨[.key "size"], .typeMismatch, "tuple of length 2", "array of length 1"⟩,
    ⟨[.key "after", .key "id"], .typeMismatch, "number.integer", "\"1\""⟩,
    ⟨[.key "after", .key "after"], .depthExceeded, "Order within 1 nested references", "reference depth 2"⟩,
    ⟨[.key "note"], .extraField, "absent (undeclared key)",
      "\"Leave it behind the green bins at the side door, and ring the b…"⟩]

theorem validate_rushOrder : orderValidator.validate rushOrder.value = .invalid rushReport := by
  rfl

/-- All five violations of an order describe what there is; of the note the first 64 characters are shown. -/
theorem report_describes_rushOrder : orderValidator.validate rushOrder.value = .invalid rushReport ∧
    ∀ e ∈ rushReport.toList, orderValidator.Describes rushOrder.value e :=
  ⟨validate_rushOrder, report_describes _ compiled_orderValidator _ _ validate_rushOrder⟩

end Validator

end Assay
