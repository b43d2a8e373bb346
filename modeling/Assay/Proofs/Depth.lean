import Assay.Proofs.Acyclic
import Assay.Proofs.Decision
import Assay.Proofs.Locality
import Assay.Proofs.Lowering
/-!
# A depth limit that is never reached

Between two steps into a value no definition is followed twice, as a reference there leads to a lower rank.  So a
budget of one reference for each definition and each level of the value is enough (`Enough`): within it the answers do
not depend on the limit, and none of them reports the depth (`same_of_enough`).
-/
namespace Assay

namespace Definitions

variable {defs : Definitions} {rank : String → Nat}

/-- The budget is enough for a reference: for the ranks from its own down, and for all ranks at each level below.  A
name without a definition needs none. -/
def Enough (defs : Definitions) (rank : String → Nat) (budget : Nat) (name : String) (v : Json) : Prop :=
  ∀ t, defs.lookup name = some t → rank name + defs.length * v.height ≤ budget + defs.length

/-- **What is left of the budget is enough wherever the definition follows a reference**: at the value a head ranks
lower, and inside it there is one level less. -/
theorem Enough.onFollowed (hr : Ranking defs rank) {budget : Nat} {name : String} {t : Tree} {v : Json}
    (ht : defs.lookup name = some t) (he : rank name + defs.length * v.height ≤ budget + 1 + defs.length) :
    OnFollowed t.heads v (Enough defs rank budget) := by
  refine ⟨fun head hh u _ => ?_, fun head w hw u _ => ?_⟩
  · have := hr.head_lt name t ht head hh
    omega
  · have hl : defs.length * (w.height + 1) ≤ defs.length * v.height := Nat.mul_le_mul_left _ hw
    rw [Nat.mul_succ] at hl
    have := hr.le head
    have := hr.pos name t ht
    omega

theorem Enough.pos (hr : Ranking defs rank) {budget : Nat} {name : String} {t : Tree} {v : Json}
    (h : Enough defs rank budget name v) (ht : defs.lookup name = some t) : 0 < budget := by
  have hp := hr.pos name t ht
  have hl : defs.length * 1 ≤ defs.length * v.height := Nat.mul_le_mul_left _ v.height_pos
  have := h t ht
  omega

/-- Two budgets, of limits of their own, give the same answers, and the first reports no depth. -/
structure Same (defs : Definitions) (limit limit' budget budget' : Nat) (name : String) (v : Json) : Prop where
  allows : defs.allows budget name v = defs.allows budget' name v
  violations : defs.violations limit budget name v = defs.violations limit' budget' name v
  normalize : defs.normalize budget name v = defs.normalize budget' name v
  shallow : Shallow (defs.violations limit budget name v)

theorem same_of_unknown (limit limit' : Nat) {name : String} (h : defs.lookup name = none) :
    ∀ (budget budget' : Nat) (v : Json), Same defs limit limit' budget budget' name v := by
  intro budget budget' v
  have hv : ∀ limit budget, defs.violations limit budget name v = [unknown name v] := fun _ budget => by
    cases budget <;> simp [violations, h]
  refine ⟨?_, by rw [hv, hv], ?_, by rw [hv]; simp [Shallow, unknown, Violation.ofValue]⟩
  · cases budget <;> cases budget' <;> simp [allows, h]
  · cases budget <;> cases budget' <;> simp [normalize, h]

/-- One reference further: the tree of the definition gives the same answers when its references do. -/
theorem same_succ {limit limit' budget budget' : Nat} {name : String} {t : Tree} {v : Json}
    (ht : defs.lookup name = some t) (h : OnFollowed t.heads v (Same defs limit limit' budget budget')) :
    Same defs limit limit' (budget + 1) (budget' + 1) name v := by
  have hv : defs.violations limit (budget + 1) name v = defs.violations limit' (budget' + 1) name v := by
    rw [violations, violations, ht]
    exact t.violations_congr v (h.imp fun _ _ hs => ⟨hs.allows, hs.violations⟩)
  refine ⟨?_, hv, ?_, ?_⟩
  · rw [Bool.eq_iff_iff, ← violations_eq_nil_iff defs limit, hv, violations_eq_nil_iff defs limit']
  · rw [normalize, normalize, ht]
    exact t.normalize_congr v (h.imp fun _ _ hs => hs.normalize)
  · rw [violations, ht]
    exact t.shallow_violations v (h.imp fun _ _ hs => hs.shallow)

/-- **Budgets that are enough give the same answers**, by induction on the first of them. -/
theorem same_of_enough (hr : Ranking defs rank) (limit limit' : Nat) :
    ∀ (budget budget' : Nat) (name : String) (v : Json), Enough defs rank budget name v →
      Enough defs rank budget' name v → Same defs limit limit' budget budget' name v
  | 0, budget', name, v, h, _ => by
    cases ht : defs.lookup name with
    | some t => exact absurd (h.pos hr ht) (Nat.lt_irrefl 0)
    | none => exact same_of_unknown limit limit' ht 0 budget' v
  | budget + 1, 0, name, v, _, h' => by
    cases ht : defs.lookup name with
    | some t => exact absurd (h'.pos hr ht) (Nat.lt_irrefl 0)
    | none => exact same_of_unknown limit limit' ht (budget + 1) 0 v
  | budget + 1, budget' + 1, name, v, h, h' => by
    cases ht : defs.lookup name with
    | none => exact same_of_unknown limit limit' ht (budget + 1) (budget' + 1) v
    | some t =>
      have ho := Enough.onFollowed hr ht (h t ht)
      have ho' := Enough.onFollowed hr ht (h' t ht)
      refine same_succ ht ⟨fun head hh => ?_, fun head w hw => ?_⟩
      · exact same_of_enough hr limit limit' budget budget' head v (ho.here head hh) (ho'.here head hh)
      · exact same_of_enough hr limit limit' budget budget' head w (ho.below head w hw) (ho'.below head w hw)

end Definitions

namespace Validator

/-- Validators of one tree and its definitions, whose limits are enough for what the tree follows, answer alike. -/
theorem alike_of_enough {defs : Definitions} {rank : String → Nat} (hr : Definitions.Ranking defs rank) (root : Tree)
    (limit limit' : Nat) (x : Json) (h : OnFollowed root.heads x (Definitions.Enough defs rank limit))
    (h' : OnFollowed root.heads x (Definitions.Enough defs rank limit')) :
    Shallow ((⟨root, some defs, limit⟩ : Validator).violations x) ∧
      (⟨root, some defs, limit⟩ : Validator).validate x = (⟨root, some defs, limit'⟩ : Validator).validate x := by
  have hs : OnFollowed root.heads x (Definitions.Same defs limit limit' limit limit') :=
    ⟨fun name hn => Definitions.same_of_enough hr _ _ _ _ name x (h.here name hn) (h'.here name hn),
      fun name w hw => Definitions.same_of_enough hr _ _ _ _ name w (h.below name w hw) (h'.below name w hw)⟩
  refine ⟨root.shallow_violations x (hs.imp fun _ _ h => h.shallow), ?_⟩
  unfold validate violations normalize
  simp only [scope, Option.getD_some]
  rw [root.violations_congr x (hs.imp fun _ _ h => ⟨h.allows, h.violations⟩),
    root.normalize_congr x (hs.imp fun _ _ h => h.normalize)]

end Validator

namespace Scope

theorem enough_of_le {defs : Definitions} {rank : String → Nat} (hr : Definitions.Ranking defs rank) {name : String}
    {t : Tree} (ht : defs.lookup name = some t) {limit : Nat} {x : Json} (hl : defs.length * x.height ≤ limit) :
    OnFollowed t.heads x (Definitions.Enough defs rank limit) := by
  refine Definitions.Enough.onFollowed hr ht ?_
  have := hr.le name
  omega

/-- **A compiled scope has no use for a depth limit past its definitions times the height of the value.**  Every defined
name has a validator, and within such a limit it reports no depth and its answers are those within any other such
limit. -/
theorem limit_irrelevant {s : Scope} {options : Options} {compiled : CompiledScope}
    (hc : s.compile options = .ok compiled) : ∀ name ∈ s.names, ∃ v, compiled.validator? name = some v ∧
      ∀ x, s.definitions.length * x.height ≤ options.maxDepth →
        (∀ report, v.validate x = .invalid report → ∀ violation ∈ report.toList, violation.rule ≠ .depthExceeded) ∧
        ∀ limit, s.definitions.length * x.height ≤ limit → ∃ compiled' v',
          s.compile { options with maxDepth := limit } = .ok compiled' ∧ compiled'.validator? name = some v' ∧
            v'.allows x = v.allows x ∧ v'.validate x = v.validate x := by
  obtain ⟨hdefs, hcycle, hmax⟩ := compile_eq_ok_iff.1 hc
  obtain ⟨rank, hr⟩ := Definitions.exists_ranking hcycle
  have hnames : compiled.names = s.names := names_compile hc
  have hlen : compiled.definitions.length = s.definitions.length := by
    simpa only [CompiledScope.names, names, List.length_map] using congrArg List.length hnames
  intro name hn
  obtain ⟨t, ht⟩ := Definitions.mem_names_iff.1 (show name ∈ compiled.names from hnames ▸ hn)
  refine ⟨⟨t, some compiled.definitions, compiled.maxDepth⟩, by rw [CompiledScope.validator?, ht]; rfl, fun x hx => ?_⟩
  rw [← hlen] at hx ⊢
  rw [hmax]
  have he := enough_of_le hr ht hx
  refine ⟨fun report hv violation hm => ?_, fun limit hl => ?_⟩
  · have hs := (Validator.alike_of_enough hr t _ _ x he he).1
    exact hs violation (by rw [Validator.violations_of_validate_invalid hv]; exact hm)
  · have hs := (Validator.alike_of_enough hr t _ _ x he (enough_of_le hr ht hl)).2
    refine ⟨⟨compiled.definitions, limit⟩, ⟨t, some compiled.definitions, limit⟩,
      compile_eq_ok_iff.2 ⟨hdefs, hcycle, rfl⟩, by rw [CompiledScope.validator?, ht]; rfl, ?_, hs.symm⟩
    rw [← Validator.isValid_validate, ← Validator.isValid_validate, hs]

/-- Trees of numbers: a number, or a list of trees. -/
def numberTrees : Scope where
  definitions := [("Tree", .constraint (.union [.kind .number, .reference "Branch"])),
    ("Branch", .array (.constraint (.reference "Tree")))]

theorem numberTrees_compile (maxDepth : Nat) : numberTrees.compile { maxDepth } =
    .ok ⟨[("Tree", .leaf (.union [.kind .number, .reference "Branch"])),
      ("Branch", .array (.leaf (.reference "Tree")))], maxDepth⟩ := rfl

/-- Three levels and two definitions: no limit from six references on changes the answer on `[[null]]`. -/
theorem limit_irrelevant_numberTrees : "Tree" ∈ numberTrees.names ∧
    numberTrees.definitions.length * (Json.array [.array [.null]]).height ≤ 6 ∧
    ∃ compiled v, numberTrees.compile { maxDepth := 6 } = .ok compiled ∧ compiled.validator? "Tree" = some v ∧
      ∀ limit, 6 ≤ limit → ∃ compiled' v', numberTrees.compile { maxDepth := limit } = .ok compiled' ∧
        compiled'.validator? "Tree" = some v' ∧
        v'.validate (.array [.array [.null]]) = v.validate (.array [.array [.null]]) := by
  obtain ⟨v, hv, h⟩ := limit_irrelevant (numberTrees_compile 6) "Tree" (by decide)
  refine ⟨by decide, by decide, _, v, numberTrees_compile 6, hv, fun limit hl => ?_⟩
  obtain ⟨compiled', v', hc, hv', -, ho⟩ := (h (.array [.array [.null]]) (by decide)).2 limit hl
  exact ⟨compiled', v', hc, hv', ho⟩

end Scope

end Assay
