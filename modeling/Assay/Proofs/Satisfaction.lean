import Assay.Proofs.References
import Assay.Proofs.WholeNumbers
/-!
# What descriptions say

Which values satisfy a constraint (`Constraint.Satisfied`) and a description (`Description.Satisfied`), said of what is
written, without trees and without deciding it.  What a reference asks is a parameter, and within a scope it is that of
the definition, up to a number of nested references (`Scope.SatisfiedWithin`).  A compiled validator allows exactly the
values that satisfy its description (`Validator.allows_iff_satisfied_description`).
-/
namespace Assay

namespace Bound

/-- The bound lies below `x`, or on it if it is inclusive. -/
def Below (b : Bound) (x : Double) : Prop :=
  ∃ i j, b.value.place? = some i ∧ x.place? = some j ∧ (i < j ∨ b.inclusive = true ∧ i = j)

/-- The bound lies above `x`, or on it if it is inclusive. -/
def Above (b : Bound) (x : Double) : Prop :=
  ∃ i j, x.place? = some i ∧ b.value.place? = some j ∧ (i < j ∨ b.inclusive = true ∧ i = j)

end Bound

theorem Double.le_iff {a b : Double} : a.le b = true ↔ ∃ i j, a.place? = some i ∧ b.place? = some j ∧ i ≤ j := by
  unfold le
  cases a.place? <;> cases b.place? <;> simp

namespace Bound

theorem admitsAbove_iff {b : Bound} {x : Double} : b.admitsAbove x = true ↔ b.Below x := by
  unfold admitsAbove Below
  cases b.inclusive with
  | true =>
    rw [if_pos rfl, Double.le_iff]
    simp only [Int.le_iff_lt_or_eq, true_and]
  | false =>
    rw [if_neg Bool.false_ne_true, Double.lt_iff]
    simp only [Bool.false_eq_true, false_and, or_false]

theorem admitsBelow_iff {b : Bound} {x : Double} : b.admitsBelow x = true ↔ b.Above x := by
  unfold admitsBelow Above
  cases b.inclusive with
  | true =>
    rw [if_pos rfl, Double.le_iff]
    simp only [Int.le_iff_lt_or_eq, true_and]
  | false =>
    rw [if_neg Bool.false_ne_true, Double.lt_iff]
    simp only [Bool.false_eq_true, false_and, or_false]

end Bound

/-- The value of the number is whole. -/
def Number.Whole (n : Number) : Prop := ∃ m : Int, n.exact = m * unitsPerOne

theorem Number.isIntegral_iff {n : Number} : n.isIntegral = true ↔ n.Whole := by
  cases n with
  | integer m _ => exact ⟨fun _ => ⟨m, rfl⟩, fun _ => rfl⟩
  | double x =>
    refine FiniteDouble.isIntegral_iff_signedUnits_dvd.trans ⟨fun ⟨m, h⟩ => ⟨m, ?_⟩, fun ⟨m, h⟩ => ⟨m, ?_⟩⟩
    · rw [Int.mul_comm]; exact h
    · rw [Int.mul_comm]; exact h

namespace Kind

/-- The value is of the kind. -/
inductive Holds : Kind → Json → Prop
  | string (s : String) : Holds string (.string s)
  | number (n : Number) : Holds number (.number n)
  | integer {n : Number} : n.Whole → Holds integer (.number n)
  | boolean (b : Bool) : Holds boolean (.bool b)

/-- What a range compares of a value of the kind. -/
inductive Measures : Kind → Json → Double → Prop
  | length (s : String) : Measures string (.string s) (.ofNat s.length)
  | number (n : Number) : Measures number (.number n) n.toDouble
  | integer {n : Number} : n.Whole → Measures integer (.number n) n.toDouble

theorem admits_iff {k : Kind} {v : Json} : k.admits v = true ↔ k.Holds v := by
  constructor
  · intro h
    cases k <;> cases v <;> first | cases h | skip
    · exact .string _
    · exact .number _
    · exact .integer (Number.isIntegral_iff.1 h)
    · exact .boolean _
  · intro h
    cases h with
    | integer hn => exact Number.isIntegral_iff.2 hn
    | _ => rfl

theorem measure?_eq_some_iff {k : Kind} {v : Json} {x : Double} : k.measure? v = some x ↔ k.Measures v x := by
  constructor
  · intro h
    cases k <;> cases v <;> first | cases h | skip
    · exact .length _
    · exact .number _
    · rename_i n
      obtain ⟨hn, hx⟩ := Option.ite_none_right_eq_some.1 (show (if n.isIntegral then _ else none) = some x from h)
      cases hx
      exact .integer (Number.isIntegral_iff.1 hn)
  · intro h
    cases h with
    | integer hn => exact if_pos (Number.isIntegral_iff.2 hn)
    | _ => rfl

theorem admitsWithin_iff {k : Kind} {min max : Option Bound} {v : Json} : k.admitsWithin min max v = true ↔
    ∃ x, k.Measures v x ∧ (∀ b, min = some b → b.Below x) ∧ ∀ b, max = some b → b.Above x := by
  simp only [← measure?_eq_some_iff, ← Bound.admitsAbove_iff, ← Bound.admitsBelow_iff]
  unfold admitsWithin
  cases k.measure? v with
  | none => simp
  | some x => cases min <;> cases max <;> simp

end Kind

namespace Literal

/-- The value equals the literal, as a number if it is one. -/
inductive Holds : Literal → Json → Prop
  | string (s : String) : Holds (string s) (.string s)
  | number {x : Double} {n : Number} : (n.toDouble == x) = true → Holds (number x) (.number n)
  | boolean (b : Bool) : Holds (boolean b) (.bool b)
  | null : Holds null .null

theorem admits_iff {l : Literal} {v : Json} : l.admits v = true ↔ l.Holds v := by
  constructor
  · intro h
    cases l <;> cases v <;> first | cases h | skip
    · cases beq_iff_eq.1 h
      exact .string _
    · exact .number h
    · cases beq_iff_eq.1 h
      exact .boolean _
    · exact .null
  · intro h
    cases h with
    | number h => exact h
    | _ => simp [admits]

end Literal

namespace Constraint

/-- **The value satisfies the constraint**, where `follow` says what its references ask. -/
inductive Satisfied (follow : String → Json → Prop) : Constraint → Json → Prop
  | kind {k : Kind} {v : Json} : k.Holds v → Satisfied follow (kind k) v
  | range {k : Kind} {min max : Option Bound} {v : Json} {x : Double} :
    k.Measures v x → (∀ b, min = some b → b.Below x) → (∀ b, max = some b → b.Above x) →
      Satisfied follow (range k min max) v
  | format {f : Format} {s : String} : f.admits s = true → Satisfied follow (format f) (.string s)
  | literal {l : Literal} {v : Json} : l.Holds v → Satisfied follow (literal l) v
  | union {cs : List Constraint} {c : Constraint} {v : Json} :
    c ∈ cs → Satisfied follow c v → Satisfied follow (union cs) v
  | array {c : Constraint} {items : List Json} :
    (∀ x ∈ items, Satisfied follow c x) → Satisfied follow c.array (.array items)
  | tuple {cs : List Constraint} {items : List Json} : cs.length = items.length →
    (∀ (i : Nat) (c : Constraint) (x : Json), cs[i]? = some c → items[i]? = some x → Satisfied follow c x) →
      Satisfied follow (tuple cs) (.array items)
  | optional {c : Constraint} {v : Json} : Satisfied follow c v → Satisfied follow c.optional v
  | reference {name : String} {v : Json} : follow name v → Satisfied follow (reference name) v

variable {allow : String → Json → Bool} {follow : String → Json → Prop}

mutual

/-- **A constraint allows the values that satisfy it**, as its references do. -/
theorem allows_iff_satisfied (hf : ∀ name v, allow name v = true ↔ follow name v) : ∀ (c : Constraint) (v : Json),
    c.allows allow v = true ↔ Satisfied follow c v
  | kind k, v => by
    rw [allows, Kind.admits_iff]
    exact ⟨.kind, fun | .kind h => h⟩
  | range k min max, v => by
    rw [allows, Kind.admitsWithin_iff]
    exact ⟨fun ⟨_, hm, hmin, hmax⟩ => .range hm hmin hmax, fun | .range hm hmin hmax => ⟨_, hm, hmin, hmax⟩⟩
  | format f, v => by
    rw [allows]
    cases v with
    | string s => exact ⟨.format, fun | .format h => h⟩
    | _ => exact ⟨fun h => (Bool.false_ne_true h).elim, fun h => nomatch h⟩
  | literal l, v => by
    rw [allows, Literal.admits_iff]
    exact ⟨.literal, fun | .literal h => h⟩
  | union cs, v => by
    rw [allows, allowsAny_iff]
    constructor
    · rintro ⟨c, hc, h⟩
      exact .union hc ((allows_iff_satisfied_of_mem hf cs c hc v).1 h)
    · rintro (_ | _ | _ | _ | ⟨hc, h⟩)
      exact ⟨_, hc, (allows_iff_satisfied_of_mem hf cs _ hc v).2 h⟩
  | array c, v => by
    cases v with
    | array items =>
      rw [allows, List.all_eq_true]
      simp only [allows_iff_satisfied hf c]
      exact ⟨.array, fun | .array h => h⟩
    | _ => exact ⟨fun h => (Bool.false_ne_true h).elim, fun h => nomatch h⟩
  | tuple cs, v => by
    cases v with
    | array items =>
      rw [allows, allowsEach_iff]
      constructor
      · rintro ⟨hl, h⟩
        refine .tuple hl fun i c x hc hx => ?_
        exact (allows_iff_satisfied_of_mem hf cs c (List.mem_of_getElem? hc) x).1 (h i c x hc hx)
      · intro h
        cases h with
        | tuple hl h =>
          refine ⟨hl, fun i c x hc hx => ?_⟩
          exact (allows_iff_satisfied_of_mem hf cs c (List.mem_of_getElem? hc) x).2 (h i c x hc hx)
    | _ => exact ⟨fun h => (Bool.false_ne_true h).elim, fun h => nomatch h⟩
  | optional c, v => by
    rw [allows, allows_iff_satisfied hf c v]
    exact ⟨.optional, fun | .optional h => h⟩
  | reference name, v => by
    rw [allows, hf]
    exact ⟨.reference, fun | .reference h => h⟩

theorem allows_iff_satisfied_of_mem (hf : ∀ name v, allow name v = true ↔ follow name v) : ∀ (cs : List Constraint),
    ∀ c ∈ cs, ∀ v, c.allows allow v = true ↔ Satisfied follow c v
  | d :: cs, c, hc => by
    rcases List.mem_cons.1 hc with hc | hc
    · rw [hc]
      exact allows_iff_satisfied hf d
    · exact allows_iff_satisfied_of_mem hf cs c hc

end

end Constraint

namespace Description

/-- A field with the description may be absent: there is an optional marker on its expression or constraint, or on that
of the validator in it. -/
inductive Marked (isDefined : String → Bool) : Description → Prop
  | expression {text : String} {c : Constraint} :
    Constraint.parse isDefined text = .ok c.optional → Marked isDefined (expression text)
  | constraint (c : Constraint) : Marked isDefined (constraint c.optional)
  | compiled {v : Validator} {c : Constraint} : v.root = .leaf c.optional → Marked isDefined (compiled v)

/-- **The value satisfies the description**, where names that `isDefined` accepts are references, `follow` says what
they ask, and `policy` is that of objects without one of their own. -/
inductive Satisfied (isDefined : String → Bool) (policy : Policy) (follow : String → Json → Prop) :
    Description → Json → Prop
  | expression {text : String} {c : Constraint} {x : Json} : Constraint.parse isDefined text = .ok c →
    c.Satisfied follow x → Satisfied isDefined policy follow (expression text) x
  | constraint {c : Constraint} {x : Json} :
    c.Satisfied follow x → Satisfied isDefined policy follow (constraint c) x
  | object {fields : List FieldDescription} {own : Option Policy} {entries : List (String × Json)} :
    (∀ f ∈ fields, ∀ x, entries.lookup f.name = some x → Satisfied isDefined policy follow f.description x) →
      (∀ f ∈ fields, entries.lookup f.name = none → f.optional = true ∨ f.description.Marked isDefined) →
      (own.getD policy = .reject → ∀ e ∈ entries, ∃ f ∈ fields, f.name = e.1) →
      Satisfied isDefined policy follow (object fields own) (.object entries)
  | array {item : Description} {items : List Json} : (∀ x ∈ items, Satisfied isDefined policy follow item x) →
    Satisfied isDefined policy follow (array item) (.array items)
  | tuple {ds : List Description} {items : List Json} : ds.length = items.length →
    (∀ (i : Nat) (d : Description) (x : Json), ds[i]? = some d → items[i]? = some x →
      Satisfied isDefined policy follow d x) → Satisfied isDefined policy follow (tuple ds) (.array items)
  | compiled {v : Validator} {x : Json} : v.allows x = true → Satisfied isDefined policy follow (compiled v) x

end Description

namespace Tree

theorem isOptional_iff {t : Tree} : t.isOptional = true ↔ ∃ c : Constraint, t = .leaf c.optional := by
  constructor
  · intro h
    cases t with
    | leaf c =>
      cases c with
      | optional c => exact ⟨c, rfl⟩
      | _ => cases h
    | _ => cases h
  · rintro ⟨c, rfl⟩
    rfl

end Tree

namespace Description

variable {isDefined : String → Bool} {policy : Policy} {allow : String → Json → Bool} {follow : String → Json → Prop}

theorem Compiles.isOptional_iff_marked {d : Description} {t : Tree} (h : Compiles isDefined policy d t) :
    t.isOptional = true ↔ d.Marked isDefined := by
  rw [Tree.isOptional_iff]
  cases h with
  | expression hp =>
    constructor
    · rintro ⟨c, hc⟩
      cases hc
      exact .expression hp
    · rintro ⟨hp'⟩
      cases hp.symm.trans hp'
      exact ⟨_, rfl⟩
  | constraint _ _ =>
    constructor
    · rintro ⟨c, hc⟩
      cases hc
      exact .constraint c
    · intro h
      cases h
      exact ⟨_, rfl⟩
  | compiled _ => exact ⟨fun ⟨c, hc⟩ => .compiled hc, fun | .compiled hc => ⟨_, hc⟩⟩
  | _ => exact ⟨fun ⟨_, hc⟩ => (nomatch hc), fun h => nomatch h⟩

/-- An embedded validator decides as in any other tree: it refers to nothing. -/
theorem allows_embedded {v : Validator} (hc : v.Compiled) (hv : v.definitions = none) (x : Json) :
    v.root.allows allow x = v.allows x :=
  v.root.allows_congr_of_references (fun name hn => by rw [hc.references_eq_nil hv] at hn; cases hn) x

mutual

/-- **The tree of a description allows the values that satisfy it**, as its references do. -/
theorem Compiles.allows_iff_satisfied (hf : ∀ name v, allow name v = true ↔ follow name v) :
    ∀ {d : Description} {t : Tree}, Compiles isDefined policy d t → (∀ v ∈ d.embedded, v.Compiled) → ∀ x,
      t.allows allow x = true ↔ Satisfied isDefined policy follow d x
  | _, _, .expression hp, _, x => by
    rw [Tree.allows, Constraint.allows_iff_satisfied hf]
    constructor
    · exact .expression hp
    · rintro ⟨hp', h⟩
      cases hp.symm.trans hp'
      exact h
  | _, _, .constraint _ _, _, x => by
    rw [Tree.allows, Constraint.allows_iff_satisfied hf]
    exact ⟨.constraint, fun | .constraint h => h⟩
  | _, _, @Compiles.object _ _ fields own trees hts, he, x => by
    cases x with
    | object entries =>
      rw [Tree.allows, Bool.and_eq_true, hts.allows_iff_satisfied hf he entries]
      have hr : (own.getD policy != .reject || entries.all fun e => declares trees e.1) = true ↔
          (own.getD policy = .reject → ∀ e ∈ entries, ∃ f ∈ fields, f.name = e.1) := by
        simp only [Bool.or_eq_true, bne_iff_ne, List.all_eq_true, hts.declares_iff, ← imp_iff_not_or]
      rw [hr]
      exact ⟨fun ⟨⟨hp, ha⟩, hx⟩ => .object hp ha hx, fun | .object hp ha hx => ⟨⟨hp, ha⟩, hx⟩⟩
    | _ => exact ⟨fun h => (Bool.false_ne_true h).elim, fun h => nomatch h⟩
  | _, _, .array ht _, he, x => by
    cases x with
    | array items =>
      rw [Tree.allows, List.all_eq_true]
      simp only [ht.allows_iff_satisfied hf he]
      exact ⟨.array, fun | .array h => h⟩
    | _ => exact ⟨fun h => (Bool.false_ne_true h).elim, fun h => nomatch h⟩
  | _, _, .tuple hts, he, x => by
    cases x with
    | array items =>
      rw [Tree.allows, hts.allows_iff_satisfied hf he items]
      exact ⟨fun ⟨hl, h⟩ => .tuple hl h, fun | .tuple hl h => ⟨hl, h⟩⟩
    | _ => exact ⟨fun h => (Bool.false_ne_true h).elim, fun h => nomatch h⟩
  | _, _, .compiled hv, he, x => by
    rw [allows_embedded (he _ List.mem_cons_self) hv]
    exact ⟨.compiled, fun | .compiled h => h⟩

theorem CompilesFields.allows_iff_satisfied (hf : ∀ name v, allow name v = true ↔ follow name v) :
    ∀ {declared : List String} {fields : List FieldDescription} {trees : List Field},
      CompilesFields isDefined policy declared fields trees → (∀ v ∈ embeddedFields fields, v.Compiled) → ∀ entries,
        Tree.allowsFields allow trees entries = true ↔
          (∀ f ∈ fields, ∀ x, entries.lookup f.name = some x → Satisfied isDefined policy follow f.description x) ∧
            ∀ f ∈ fields, entries.lookup f.name = none → f.optional = true ∨ f.description.Marked isDefined
  | _, _, _, .nil _, _, _ => by simp [Tree.allowsFields]
  | _, _, _, @CompilesFields.cons _ _ _ name _ _ _ _ _ ht _ hts, he, entries => by
    rw [embeddedFields] at he
    rw [Tree.allowsFields, Bool.and_eq_true, List.forall_mem_cons, List.forall_mem_cons, and_and_and_comm,
      hts.allows_iff_satisfied hf fun v hv => he v (List.mem_append_right _ hv)]
    refine and_congr_left fun _ => ?_
    dsimp only
    cases entries.lookup name with
    | some x =>
      have hx := ht.allows_iff_satisfied hf (fun v hv => he v (List.mem_append_left _ hv)) x
      simp [Tree.allows_splitOptional, hx]
    | none => simp [Tree.splitOptional_snd, ht.isOptional_iff_marked]

theorem CompilesEach.allows_iff_satisfied (hf : ∀ name v, allow name v = true ↔ follow name v) :
    ∀ {ds : List Description} {trees : List Tree}, CompilesEach isDefined policy ds trees →
      (∀ v ∈ embeddedEach ds, v.Compiled) → ∀ items, Tree.allowsEach allow trees items = true ↔
        ds.length = items.length ∧ ∀ (i : Nat) (d : Description) (x : Json), ds[i]? = some d → items[i]? = some x →
          Satisfied isDefined policy follow d x
  | _, _, .nil, _, items => by cases items <;> simp [Tree.allowsEach]
  | _, _, .cons _ _ _, _, [] => by simp [Tree.allowsEach]
  | _, _, .cons ht _ hts, he, x :: items => by
    rw [embeddedEach] at he
    rw [Tree.allowsEach, Bool.and_eq_true, ht.allows_iff_satisfied hf (fun v hv => he v (List.mem_append_left _ hv)),
      hts.allows_iff_satisfied hf (fun v hv => he v (List.mem_append_right _ hv)), forall_places_cons, List.length_cons,
      List.length_cons, Nat.add_right_cancel_iff, and_left_comm]

end

end Description

namespace Scope

/-- The value satisfies the definition of a name, with at most `budget` references open, this one among them. -/
def SatisfiedWithin (s : Scope) (policy : Policy) : (budget : Nat) → String → Json → Prop
  | 0, _, _ => False
  | budget + 1, name, x => ∃ d, s.definitions.lookup name = some d ∧
    d.Satisfied s.names.contains policy (s.SatisfiedWithin policy budget) x

variable {s : Scope} {options : Options} {compiled : CompiledScope}

/-- A reference allows what satisfies its definition, by induction on the references that may be open. -/
theorem allows_iff_satisfiedWithin (h : s.compile options = .ok compiled)
    (he : ∀ e ∈ s.definitions, ∀ v ∈ e.2.embedded, v.Compiled) : ∀ (budget : Nat) (name : String) (x : Json),
      compiled.definitions.allows budget name x = true ↔ s.SatisfiedWithin options.policy budget name x
  | 0, _, _ => by simp [Definitions.allows, SatisfiedWithin]
  | budget + 1, name, x => by
    rw [Definitions.allows, SatisfiedWithin]
    cases ht : compiled.definitions.lookup name with
    | none =>
      refine ⟨fun hx => (Bool.false_ne_true hx).elim, fun hx => ?_⟩
      obtain ⟨d, hd, -⟩ := hx
      obtain ⟨t, hl, -⟩ := compiles_of_lookup h hd
      rw [ht] at hl
      cases hl
    | some t =>
      obtain ⟨d, hd, hc⟩ := compiles_of_lookup_compiled h ht
      have hs := hc.allows_iff_satisfied (allows_iff_satisfiedWithin h he budget) (he _ (mem_of_lookup hd)) x
      simp [hd, hs]

end Scope

namespace Validator

/-- **A validator allows the values that satisfy its description**: outside a scope, where nothing is a reference, and
within one, where a reference asks for its definition as long as fewer than `maxDepth` of them are open. -/
theorem allows_iff_satisfied_description :
    (∀ (c : Compiler) (d : Description) (v : Validator), c.Reached → (∀ u ∈ d.embedded, u.Compiled) →
      (c.compile d).1 = .ok v →
        ∀ x, v.allows x = true ↔ d.Satisfied (fun _ => false) c.options.policy (fun _ _ => False) x) ∧
    ∀ (s : Scope) (options : Options) (compiled : CompiledScope),
      (∀ e ∈ s.definitions, ∀ u ∈ e.2.embedded, u.Compiled) → s.compile options = .ok compiled →
        ∀ name d, s.definitions.lookup name = some d → ∃ v, compiled.validator? name = some v ∧
          ∀ x, v.allows x = true ↔
            d.Satisfied s.names.contains options.policy (s.SatisfiedWithin options.policy options.maxDepth) x := by
  constructor
  · intro c d v hc he hv x
    obtain ⟨root, rfl, ht⟩ := hc.compiles hv
    refine ht.allows_iff_satisfied (fun name w => ?_) he x
    cases c.options.maxDepth <;> simp [scope, Definitions.allows]
  · intro s options compiled he h name d hd
    obtain ⟨t, hl, ht⟩ := Scope.compiles_of_lookup h hd
    have hm : compiled.maxDepth = options.maxDepth := (Scope.compile_eq_ok_iff.1 h).2.2
    refine ⟨⟨t, some compiled.definitions, compiled.maxDepth⟩, by rw [CompiledScope.validator?, hl]; rfl, fun x => ?_⟩
    rw [← hm]
    exact ht.allows_iff_satisfied (Scope.allows_iff_satisfiedWithin h he compiled.maxDepth) (he _ (mem_of_lookup hd)) x

/-- A tag, which was compiled before, and perhaps a number with it. -/
def tagged : Description :=
  .object [⟨"tag", .compiled ⟨.leaf (.kind .string), none, 100⟩, false⟩,
    ⟨"of", .constraint (.optional (.kind .number)), false⟩] none

theorem compiled_of_mem_tagged : ∀ u ∈ tagged.embedded, u.Compiled :=
  List.forall_mem_singleton.2 (.alone (d := .constraint (.kind .string)) (.new {}) (fun _ h => nomatch h) rfl)

/-- A chain of objects, each with the next one if there is one. -/
def chain : Scope where
  definitions := [("Chain", .object [⟨"next", .constraint (.optional (.reference "Chain")), false⟩] none)]

theorem chain_compile : chain.compile ⟨.reject, 1⟩ =
    .ok ⟨[("Chain", .object [⟨"next", true, .leaf (.reference "Chain")⟩] .reject)], 1⟩ := rfl

/-- A tag may stand alone but nothing else with it, and of a chain one reference may be open: two objects are a chain
and three are too many. -/
theorem allows_iff_satisfied_description_chain :
    (tagged.Satisfied (fun _ => false) .reject (fun _ _ => False) (.object [("tag", .string "a")]) ∧
      ¬ tagged.Satisfied (fun _ => false) .reject (fun _ _ => False) (.object [("tag", .string "a"), ("by", .null)])) ∧
    ∃ d, chain.definitions.lookup "Chain" = some d ∧
      d.Satisfied chain.names.contains .reject (chain.SatisfiedWithin .reject 1) (.object [("next", .object [])]) ∧
      ¬ d.Satisfied chain.names.contains .reject (chain.SatisfiedWithin .reject 1)
        (.object [("next", .object [("next", .object [])])]) := by
  constructor
  · have h := allows_iff_satisfied_description.1 ⟨⟨.reject, 100⟩, []⟩ tagged _ (.new _) compiled_of_mem_tagged rfl
    exact ⟨(h _).1 (by decide), mt (h _).2 (by decide)⟩
  · obtain ⟨v, hv, h⟩ := allows_iff_satisfied_description.2 chain _ _
      (List.forall_mem_singleton.2 fun _ h => nomatch h) chain_compile "Chain" _ rfl
    cases hv
    exact ⟨_, rfl, (h _).1 (by decide), mt (h _).2 (by decide)⟩

end Validator

end Assay
