import Assay.Proofs.Following
import Assay.Proofs.Isolation
import Assay.Proofs.Similarity
/-!
# Raising the limit

A limit on nested references that is raised only accepts more, and what it accepted before has the same normal form
(`Definitions.allows_mono`, `Definitions.normalize_eq_of_le`).  No run nests more references than the limit: evaluators
that count them and give up past the limit never do (`Validator.allowsWithin?_eq`, `Validator.validateWithin?_eq`).  A
reference is reported as too deep behind a chain of exactly as many references, each in the definition of the one before
(`Validator.exists_nested_of_mem`).
-/
namespace Assay

section Mono

variable {allow allow' : String → Json → Bool} {follow follow' : String → Json → Json}

/-- **A tree allows no less when its references allow no less.** -/
theorem Tree.allows_mono (t : Tree) (h : ∀ name v, allow name v = true → allow' name v = true) (v : Json) :
    t.allows allow v = true → t.allows allow' v = true := by
  have hself : t.Similar (· = ·) t := .refl (fun _ => rfl) t
  refine hself.rel_allows boolCongruence_imp (fun p p' hp => ?_) h v
  obtain rfl : p = p' := hp
  exact id

/-- Of an allowed value a tree makes the same when its references do of what they allow. -/
theorem Tree.normalize_eq_of_allows (t : Tree)
    (h : ∀ name v, v.distinctKeys = true → allow name v = true → follow name v = follow' name v) {v : Json}
    (hd : v.distinctKeys = true) (hv : t.allows allow v = true) : t.normalize follow v = t.normalize follow' v := by
  have hself : t.Similar (· = ·) t := .refl (fun _ => rfl) t
  exact hself.normalize_eq (fun _ _ => Or.inl) h v hd hv

end Mono

namespace Definitions

/-- **A larger budget allows no less**, by induction on the smaller one. -/
theorem allows_mono (defs : Definitions) : ∀ {budget budget' : Nat}, budget ≤ budget' → ∀ (name : String) (v : Json),
    defs.allows budget name v = true → defs.allows budget' name v = true
  | 0, _, _, _, _, h => by cases h
  | budget + 1, budget', hle, name, v, h => by
    obtain ⟨more, rfl⟩ : ∃ more, budget' = more + 1 := ⟨budget' - 1, by omega⟩
    rw [allows] at h ⊢
    cases hl : defs.lookup name with
    | none =>
      rw [hl] at h
      cases h
    | some t =>
      rw [hl] at h
      exact t.allows_mono (defs.allows_mono (by omega)) v h

/-- **What a budget allows a larger one makes the same of.** -/
theorem normalize_eq_of_le (defs : Definitions) : ∀ {budget budget' : Nat}, budget ≤ budget' → ∀ (name : String)
    (v : Json), v.distinctKeys = true → defs.allows budget name v = true →
      defs.normalize budget name v = defs.normalize budget' name v
  | 0, _, _, _, _, _, h => by cases h
  | budget + 1, budget', hle, name, v, hd, h => by
    obtain ⟨more, rfl⟩ : ∃ more, budget' = more + 1 := ⟨budget' - 1, by omega⟩
    rw [allows] at h
    rw [normalize, normalize]
    cases hl : defs.lookup name with
    | none => rfl
    | some t =>
      rw [hl] at h
      exact t.normalize_eq_of_allows (defs.normalize_eq_of_le (by omega)) hd h

end Definitions

/-- **Raising the limit only accepts more**, with the same normal form. -/
theorem Validator.validate_eq_valid_of_le {root : Tree} {definitions : Option Definitions} {limit limit' : Nat}
    (hle : limit ≤ limit') {x : Document} {n : Json}
    (h : (Validator.mk root definitions limit).validate x.value = .valid n) :
      (Validator.mk root definitions limit').validate x.value = .valid n := by
  obtain ⟨hx, rfl⟩ := validate_eq_valid_iff_allows.1 h
  refine validate_eq_valid_iff_allows.2 ⟨?_, ?_⟩
  · exact root.allows_mono (Definitions.allows_mono _ hle) x.value hx
  · exact root.normalize_eq_of_allows (Definitions.normalize_eq_of_le _ hle) x.distinct hx

/-! ### Counting references -/

namespace Definitions

/-- The decision of a definition behind `opened` nested references, or nothing where it takes more than `most` of
them. -/
def allowsWithin? (defs : Definitions) (most : Nat) : (budget opened : Nat) → String → Json → Option Bool
  | 0, _, _, _ => some false
  | budget + 1, opened, name, v => match defs.lookup name with
    | some t => if opened < most then t.allowsM (allowsWithin? defs most budget (opened + 1)) v else none
    | none => some false

/-- The violations of a definition behind `opened` nested references, or nothing where it takes more than `most` of
them. -/
def violationsWithin? (defs : Definitions) (most limit : Nat) :
    (budget opened : Nat) → String → Json → Option (List Violation)
  | 0, _, name, v => match defs.lookup name with
    | some _ => some [tooDeep limit name]
    | none => some [unknown name v]
  | budget + 1, opened, name, v => match defs.lookup name with
    | some t => if opened < most then
        t.violationsM (defs.allowsWithin? most budget (opened + 1))
          (violationsWithin? defs most limit budget (opened + 1)) v
      else none
    | none => some [unknown name v]

/-- The normal form by a definition behind `opened` nested references, or nothing where it takes more than `most` of
them. -/
def normalizeWithin? (defs : Definitions) (most : Nat) : (budget opened : Nat) → String → Json → Option Json
  | 0, _, _, v => some v
  | budget + 1, opened, name, v => match defs.lookup name with
    | some t => if opened < most then t.normalizeM (normalizeWithin? defs most budget (opened + 1)) v else none
    | none => some v

variable {most : Nat}

/-- **What is left of the budget and what is open are together never more than they were**, so that the count stays
within it. -/
theorem allowsWithin?_eq (defs : Definitions) (names : List String) : ∀ (budget opened : Nat), opened + budget ≤ most →
    Answers names (defs.allowsWithin? most budget opened) (defs.allows budget)
  | 0, _, _ => fun _ _ _ => rfl
  | budget + 1, opened, hle => fun name _ v => by
    rw [allowsWithin?, allows]
    cases defs.lookup name with
    | none => rfl
    | some t =>
      have hopen : opened < most := by omega
      have hasked : Answers t.references (defs.allowsWithin? most budget (opened + 1)) (defs.allows budget) :=
        allowsWithin?_eq defs t.references budget (opened + 1) (by omega)
      dsimp only
      rw [if_pos hopen]
      exact t.allowsM_eq_pure hasked v

theorem violationsWithin?_eq (defs : Definitions) (limit : Nat) (names : List String) : ∀ (budget opened : Nat),
    opened + budget ≤ most →
      Answers names (defs.violationsWithin? most limit budget opened) (defs.violations limit budget)
  | 0, _, _ => fun name _ v => by
    rw [violationsWithin?, violations]
    cases defs.lookup name <;> rfl
  | budget + 1, opened, hle => fun name _ v => by
    rw [violationsWithin?, violations]
    cases defs.lookup name with
    | none => rfl
    | some t =>
      have hopen : opened < most := by omega
      have hasked : Answers t.references (defs.allowsWithin? most budget (opened + 1)) (defs.allows budget) :=
        allowsWithin?_eq defs t.references budget (opened + 1) (by omega)
      have hfound := violationsWithin?_eq defs limit t.references budget (opened + 1) (by omega)
      dsimp only
      rw [if_pos hopen]
      exact t.violationsM_eq_pure hasked hfound v

theorem normalizeWithin?_eq (defs : Definitions) (names : List String) : ∀ (budget opened : Nat),
    opened + budget ≤ most → Answers names (defs.normalizeWithin? most budget opened) (defs.normalize budget)
  | 0, _, _ => fun _ _ _ => rfl
  | budget + 1, opened, hle => fun name _ v => by
    rw [normalizeWithin?, normalize]
    cases defs.lookup name with
    | none => rfl
    | some t =>
      have hopen : opened < most := by omega
      have hgiven := normalizeWithin?_eq defs t.references budget (opened + 1) (by omega)
      dsimp only
      rw [if_pos hopen]
      exact t.normalizeM_eq_pure hgiven v

end Definitions

namespace Validator

/-- Whether the validator allows a value, or nothing where the decision nests more than `most` references. -/
def allowsWithin? (v : Validator) (most : Nat) (x : Json) : Option Bool :=
  v.root.allowsM (v.scope.allowsWithin? most v.maxDepth 0) x

/-- The outcome of a value, or nothing where the validation nests more than `most` references. -/
def validateWithin? (v : Validator) (most : Nat) (x : Json) : Option Outcome := do
  let found ← v.root.violationsM (v.scope.allowsWithin? most v.maxDepth 0)
    (v.scope.violationsWithin? most v.maxDepth v.maxDepth 0) x
  match Report.ofList? found with
  | none => return .valid (← v.root.normalizeM (v.scope.normalizeWithin? most v.maxDepth 0) x)
  | some report => return .invalid report

/-- **No decision nests more references than the limit.** -/
theorem allowsWithin?_eq (v : Validator) (x : Json) : v.allowsWithin? v.maxDepth x = some (v.allows x) :=
  v.root.allowsM_eq_pure (v.scope.allowsWithin?_eq v.root.references v.maxDepth 0 (by omega)) x

/-- **No validation nests more references than the limit.** -/
theorem validateWithin?_eq (v : Validator) (x : Json) : v.validateWithin? v.maxDepth x = some (v.validate x) := by
  have hle : 0 + v.maxDepth ≤ v.maxDepth := by omega
  have hasked := v.scope.allowsWithin?_eq v.root.references v.maxDepth 0 hle
  have hfound := v.scope.violationsWithin?_eq v.maxDepth v.root.references v.maxDepth 0 hle
  have hgiven := v.scope.normalizeWithin?_eq v.root.references v.maxDepth 0 hle
  have hv : v.root.violationsM (v.scope.allowsWithin? v.maxDepth v.maxDepth 0)
      (v.scope.violationsWithin? v.maxDepth v.maxDepth v.maxDepth 0) x = some (v.violations x) :=
    v.root.violationsM_eq_pure hasked hfound x
  have hn : v.root.normalizeM (v.scope.normalizeWithin? v.maxDepth v.maxDepth 0) x = some (v.normalize x) :=
    v.root.normalizeM_eq_pure hgiven x
  rw [validateWithin?, hv, hn, Option.bind_eq_bind, Option.bind_some, validate]
  cases Report.ofList? (v.violations x) <;> rfl

end Validator

/-! ### The reference that is too deep -/

namespace Tree

/-- **A chain of nested references**: each of `chain` is in the definition of the one before, the first under `root`,
and behind the last one `t` checks what stands at the path. -/
inductive Nested (defs : Definitions) : (root : Tree) → (chain : List String) → Path → (t : Tree) → Prop
  | here {root t : Tree} {p : Path} : Checks [] root p t → Nested defs root [] p t
  | follow {root d t : Tree} {name : String} {chain : List String} {p q : Path} :
    Checks [] root p (leaf (.reference name)) → defs.lookup name = some d → Nested defs d chain q t →
      Nested defs root (name :: chain) (p ++ q) t

variable {allow : String → Json → Bool} {follow : String → Json → List Violation} {root : Tree}

theorem distinctFields_nil : Definitions.DistinctFields [] := fun _ _ hl => by cases hl

/-- **A reference that is too deep is found by following one that the tree itself refers to**, at the path where it
does. -/
theorem exists_reference_of_mem (hr : root.distinctFields = true) {t : Tree} {q : Path} (hc : Checks [] root q t)
    {v : Json} {e : Violation} (he : e ∈ t.violations allow follow v) (hrule : e.rule = .depthExceeded) :
      ∃ p name w, Checks [] root p (leaf (.reference name)) ∧ ∃ e' ∈ follow name w, e.below q = e'.below p := by
  cases ht : t.handsOn with
  | false =>
    rw [violations_eq_parts ht] at he
    rcases List.mem_append.1 he with he | he
    · exact absurd hrule (mismatch_of_mem he).rule_ne
    · obtain ⟨⟨s, part⟩, hpart, hfound⟩ := List.mem_flatMap.1 he
      obtain ⟨e₀, he₀, rfl⟩ := List.mem_map.1 hfound
      have hhas := hasPart_of_mem hpart
      cases part with
      | checked u w =>
        have hchecks := hc.part (hc.distinctFields hr distinctFields_nil) hhas
        obtain ⟨p, name, w', hp, e', he', hbelow⟩ := exists_reference_of_mem hr hchecks he₀ hrule
        exact ⟨p, name, w', hp, e', he', (Violation.below_under q s e₀).trans hbelow⟩
      | missing u =>
        rw [List.mem_singleton.1 he₀] at hrule
        cases hrule
      | extra w =>
        rw [List.mem_singleton.1 he₀] at hrule
        cases hrule
  | true =>
    rcases handsOn_cases ht with ⟨c, hopt⟩ | ⟨name, rfl⟩
    · have hlt : sizeOf (leaf c) < sizeOf t := by rw [hopt]; simp
      rw [hopt] at hc
      have hinner : e ∈ (leaf c).violations allow follow v := by
        rw [hopt, violations, Constraint.violations] at he
        rwa [violations]
      exact exists_reference_of_mem hr hc.inner hinner hrule
    · rw [violations, Constraint.violations] at he
      exact ⟨q, name, v, hc, e, he, rfl⟩
termination_by sizeOf t
decreasing_by
  · exact sizeOf_lt_of_hasPart hhas
  · exact hlt

/-- **What is too deep is behind a chain of as many references as the budget allows**, by induction on the budget: the
reference that the tree refers to is refused, or its definition refers on. -/
theorem exists_nested_of_mem {defs : Definitions} (hd : defs.DistinctFields) (limit : Nat) :
    ∀ (budget : Nat) {t : Tree}, t.distinctFields = true → ∀ {v : Json} {e : Violation},
      e ∈ t.violations (defs.allows budget) (defs.violations limit budget) v → e.rule = .depthExceeded →
        ∃ chain name, Nested defs t chain e.path (leaf (.reference name)) ∧ chain.length = budget ∧
          name ∈ defs.map (·.1) ∧ e = (Definitions.tooDeep limit name).below e.path
  | budget, t, ht, v, e, he, hrule => by
    obtain ⟨p, name, w, hp, e', he', hbelow⟩ := exists_reference_of_mem ht .root he hrule
    obtain rfl : e = e'.below p := hbelow
    cases hl : defs.lookup name with
    | none =>
      have hunknown : e' ∈ [Definitions.unknown name w] := by
        cases budget <;> rwa [Definitions.violations, hl] at he'
      rw [List.mem_singleton.1 hunknown] at hrule
      cases hrule
    | some d =>
      cases budget with
      | zero =>
        rw [Definitions.violations, hl] at he'
        obtain rfl := List.mem_singleton.1 he'
        have hpath : ((Definitions.tooDeep limit name).below p).path = p := List.append_nil p
        rw [hpath]
        exact ⟨[], name, .here hp, rfl, Definitions.mem_names_iff.2 ⟨d, hl⟩, rfl⟩
      | succ budget =>
        rw [Definitions.violations, hl] at he'
        obtain ⟨chain, last, hnested, hlength, hdefined, heq⟩ :=
          exists_nested_of_mem hd limit budget (hd name d hl) he' hrule
        refine ⟨name :: chain, last, .follow hp hl hnested, by rw [List.length_cons, hlength], hdefined, ?_⟩
        exact (congrArg (Violation.below p) heq).trans (Violation.below_below p e'.path _)

end Tree

namespace Validator

/-- **What a validator reports as too deep** is the reference past a chain of as many nested ones as its limit. -/
theorem exists_nested_of_mem {v : Validator} (hv : v.DistinctFields) {x : Json} {e : Violation}
    (he : e ∈ (v.validate x).violations) (hrule : e.rule = .depthExceeded) :
      ∃ chain name, Tree.Nested v.scope v.root chain e.path (.leaf (.reference name)) ∧ chain.length = v.maxDepth ∧
        name ∈ v.scope.map (·.1) ∧
        e = ⟨e.path, .depthExceeded, name ++ " within " ++ decimalDigits v.maxDepth ++ " nested references",
          "reference depth " ++ decimalDigits (v.maxDepth + 1)⟩ := by
  rw [violations_validate] at he
  obtain ⟨chain, name, hnested, hlength, hdefined, heq⟩ :=
    Tree.exists_nested_of_mem hv.scope v.maxDepth v.maxDepth hv.root he hrule
  refine ⟨chain, name, hnested, hlength, hdefined, heq.trans ?_⟩
  rw [Violation.below_of_path rfl]
  rfl

end Validator

namespace Scope

/-- **Raising the limit of a scope only accepts more.**  A scope that compiles within a limit compiles within every
larger one, and under each name the larger limit makes the same of what the smaller accepts.  No run within a limit
nests more references than it, and what is reported as too deep is the reference past a chain of as many nested ones. -/
theorem raising_limit {s : Scope} {policy : Policy} {limit : Nat} {compiled : CompiledScope}
    (he : ∀ e ∈ s.definitions, ∀ u ∈ e.2.embedded, u.Compiled) (h : s.compile ⟨policy, limit⟩ = .ok compiled) :
      (∀ limit', limit ≤ limit' → ∃ compiled', s.compile ⟨policy, limit'⟩ = .ok compiled' ∧ ∀ name ∈ s.names, ∃ v v',
        compiled.validator? name = some v ∧ compiled'.validator? name = some v' ∧
          ∀ (x : Document) n, v.validate x.value = .valid n → v'.validate x.value = .valid n) ∧
      ∀ name v, compiled.validator? name = some v →
        (∀ x, v.allowsWithin? limit x = some (v.allows x) ∧ v.validateWithin? limit x = some (v.validate x)) ∧
        ∀ x, ∀ e ∈ (v.validate x).violations, e.rule = .depthExceeded → ∃ chain refused,
          Tree.Nested v.scope v.root chain e.path (.leaf (.reference refused)) ∧ chain.length = limit ∧
            refused ∈ s.names ∧
            e = ⟨e.path, .depthExceeded, refused ++ " within " ++ decimalDigits limit ++ " nested references",
              "reference depth " ++ decimalDigits (limit + 1)⟩ := by
  obtain ⟨hdefs, hcycle, hmax⟩ := compile_eq_ok_iff.1 h
  obtain ⟨defs, maxDepth⟩ := compiled
  obtain rfl : maxDepth = limit := hmax
  constructor
  · intro limit' hle
    refine ⟨⟨defs, limit'⟩, compile_eq_ok_iff.2 ⟨hdefs, hcycle, rfl⟩, fun name hn => ?_⟩
    obtain ⟨v, hv⟩ := exists_validator?_of_mem h hn
    unfold CompiledScope.validator? at hv ⊢
    obtain ⟨t, ht, rfl⟩ := Option.map_eq_some_iff.1 hv
    rw [ht]
    exact ⟨_, _, rfl, rfl, fun x n hx => Validator.validate_eq_valid_of_le hle hx⟩
  · intro name v hv
    have hfields := (Validator.Compiled.ofScope he h hv).distinctFields
    unfold CompiledScope.validator? at hv
    obtain ⟨t, ht, rfl⟩ := Option.map_eq_some_iff.1 hv
    refine ⟨fun x => ⟨Validator.allowsWithin?_eq _ x, Validator.validateWithin?_eq _ x⟩, fun x e hmem hrule => ?_⟩
    obtain ⟨chain, refused, hnested, hlength, hdefined, heq⟩ := Validator.exists_nested_of_mem hfields hmem hrule
    have hname : refused ∈ s.names := by
      rw [← names_compile h]
      exact hdefined
    exact ⟨chain, refused, hnested, hlength, hname, heq⟩

/-- Objects that each may hold the next one. -/
def links : Scope where
  definitions := [("Link", .object [⟨"next", .constraint (.reference "Link"), true⟩] none)]

def linkTree : Tree := .object [⟨"next", true, .leaf (.reference "Link")⟩] .allow

/-- The validator of links within a limit. -/
def linkWithin (limit : Nat) : Validator := ⟨linkTree, some [("Link", linkTree)], limit⟩

theorem links_compile (limit : Nat) : links.compile ⟨.allow, limit⟩ = .ok ⟨[("Link", linkTree)], limit⟩ := rfl

/-- As many links behind the first. -/
def linked : Nat → Json
  | 0 => .object []
  | more + 1 => .object [("next", linked more)]

/-- Within one reference two links are valid, as they are within two, and of three the last is behind a chain of one. -/
theorem raising_limit_links : (linkWithin 1).validate (linked 1) = .valid (linked 1) ∧
    (linkWithin 2).validate (linked 1) = .valid (linked 1) ∧
    (linkWithin 1).validateWithin? 1 (linked 2) = some ((linkWithin 1).validate (linked 2)) ∧
    ∃ e ∈ ((linkWithin 1).validate (linked 2)).violations, e.rule = .depthExceeded ∧ ∃ chain refused,
      Tree.Nested [("Link", linkTree)] linkTree chain [.key "next", .key "next"] (.leaf (.reference refused)) ∧
        chain.length = 1 ∧ refused ∈ links.names ∧ e.actual = "reference depth 2" := by
  have he : ∀ e ∈ links.definitions, ∀ u ∈ e.2.embedded, u.Compiled := by
    simp [links, Description.embedded, Description.embeddedFields]
  obtain ⟨hraise, hrun⟩ := raising_limit he (links_compile 1)
  obtain ⟨compiled', hc', hname⟩ := hraise 2 (by decide)
  obtain ⟨v, v', hv, hv', hvalid⟩ := hname "Link" (by decide)
  cases hc'
  cases hv
  cases hv'
  obtain ⟨hwithin, hdeep⟩ := hrun "Link" _ rfl
  have hone : (linkWithin 1).validate (linked 1) = .valid (linked 1) := rfl
  refine ⟨hone, hvalid ⟨linked 1, rfl⟩ _ hone, (hwithin (linked 2)).2, ?_⟩
  have hmem : (Definitions.tooDeep 1 "Link").below [.key "next", .key "next"] ∈
      ((linkWithin 1).validate (linked 2)).violations := List.mem_singleton.2 rfl
  obtain ⟨chain, refused, hnested, hlength, hrefused, -⟩ := hdeep _ _ hmem rfl
  exact ⟨_, hmem, rfl, chain, refused, hnested, hlength, hrefused, rfl⟩

end Scope

end Assay
