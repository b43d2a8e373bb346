import Assay.Proofs.Isolation
import Assay.Proofs.ScopeChanges
import Assay.Proofs.Similarity
import Assay.Proofs.WellFormed
/-!
# Arrays and tuples inside expressions

An array or a tuple can be written inside an expression, where a leaf checks it, or as a description
(`Constraint.explode`), where the tree does.  Both become similar trees (`Tree.similar_spread`), which decide and
normalize alike and find the same violations in the same order, each at the same path and by the same rule; only what
they say was expected differs (`Tree.Similar.findings_violations`).
-/
namespace Assay

/-- What a violation says apart from what was expected. -/
def Violation.finding (e : Violation) : Path × Rule × String := (e.path, e.rule, e.actual)

/-- The violations up to what was expected, in their order. -/
def findings (vs : List Violation) : List (Path × Rule × String) := vs.map Violation.finding

theorem findings_append (vs ws : List Violation) : findings (vs ++ ws) = findings vs ++ findings ws := List.map_append

theorem findings_under {vs ws : List Violation} (h : findings vs = findings ws) (s : Segment) :
    findings (vs.map (·.under s)) = findings (ws.map (·.under s)) := by
  have hunder : ∀ us : List Violation,
      findings (us.map (·.under s)) = (findings us).map fun f => (s :: f.1, f.2) := fun us => by
    unfold findings
    rw [List.map_map, List.map_map]
    rfl
  rw [hunder, hunder, h]

theorem findings_itemViolations {check check' : Json → List Violation}
    (h : ∀ v, findings (check v) = findings (check' v)) : ∀ (i : Nat) (items : List Json),
      findings (itemViolations check i items) = findings (itemViolations check' i items)
  | _, [] => rfl
  | i, v :: items => by
    rw [itemViolations, itemViolations, findings_append, findings_append, findings_under (h v),
      findings_itemViolations h (i + 1) items]

section Findings

variable {allow : String → Json → Bool} {follow follow' : String → Json → List Violation}

namespace Constraint

mutual

/-- **What a constraint finds depends on what its references find.** -/
theorem findings_violations (hf : ∀ name v, findings (follow name v) = findings (follow' name v)) :
    ∀ (c : Constraint) (v : Json), findings (c.violations allow follow v) = findings (c.violations allow follow' v)
  | kind k, v => by rw [violations, violations]
  | range k min max, v => by rw [violations, violations]
  | format f, v => by rw [violations, violations]
  | literal l, v => by rw [violations, violations]
  | union cs, v => by rw [violations, violations]
  | optional c, v => by rw [violations, violations, findings_violations hf c v]
  | reference name, v => by rw [violations, violations, hf name v]
  | array c, v => by
    cases v with
    | array items =>
      rw [violations, violations]
      exact findings_itemViolations (findings_violations hf c) 0 items
    | _ => simp only [violations]
  | tuple cs, v => by
    cases v with
    | array items =>
      rw [violations, violations]
      by_cases hl : items.length = cs.length
      · rw [if_pos hl, if_pos hl, findings_violationsEach hf 0 cs items]
      · rw [if_neg hl, if_neg hl]
    | _ => simp only [violations]

theorem findings_violationsEach (hf : ∀ name v, findings (follow name v) = findings (follow' name v)) :
    ∀ (i : Nat) (cs : List Constraint) (items : List Json),
      findings (violationsEach allow follow i cs items) = findings (violationsEach allow follow' i cs items)
  | _, [], _ => by simp only [violationsEach]
  | _, _ :: _, [] => by simp only [violationsEach]
  | i, c :: cs, v :: items => by
    rw [violationsEach, violationsEach, findings_append, findings_append,
      findings_under (findings_violations hf c v), findings_violationsEach hf (i + 1) cs items]

end

end Constraint

namespace Tree

mutual

/-- **Similar trees of the same policies find the same**, if references do: only what they expected differs. -/
theorem Similar.findings_violations (hf : ∀ name v, findings (follow name v) = findings (follow' name v)) :
    ∀ {t t' : Tree}, Similar (· = ·) t t' → ∀ (v : Json),
      findings (t.violations allow follow v) = findings (t'.violations allow follow' v)
  | _, _, .leaf c, v => by
    rw [violations, violations, c.findings_violations hf v]
  | _, _, .leafArray h, v => by
    cases v with
    | array items =>
      rw [violations, violations, Constraint.violations]
      refine findings_itemViolations (fun x => ?_) 0 items
      have ih := h.findings_violations hf x
      rwa [violations] at ih
    | _ =>
      simp only [violations, Constraint.violations]
      rfl
  | _, _, @Similar.leafTuple _ cs ts h, v => by
    have hl : cs.length = ts.length := by
      rw [← h.length_eq, List.length_map]
    cases v with
    | array items =>
      rw [violations, violations, Constraint.violations, ← violationsEach_map_leaf, hl]
      by_cases hi : items.length = ts.length
      · rw [if_pos hi, if_pos hi, h.findings_violationsEach hf 0 items]
      · rw [if_neg hi, if_neg hi]
    | _ => simp only [violations, Constraint.violations, hl]
  | _, _, @Similar.object _ fields fields' policy policy' hp h, v => by
    obtain rfl : policy = policy' := hp
    cases v with
    | object entries =>
      have hextra : extraViolations fields entries = extraViolations fields' entries := by
        unfold extraViolations
        rw [funext fun e : String × Json => congrArg not (h.declares_eq e.1)]
      rw [violations, violations, findings_append, findings_append, h.findings_violationsFields hf entries, hextra]
    | _ => simp only [violations]
  | _, _, .array h, v => by
    cases v with
    | array items =>
      rw [violations, violations]
      exact findings_itemViolations (h.findings_violations hf) 0 items
    | _ => simp only [violations]
  | _, _, @Similar.tuple _ ts ts' h, v => by
    have hl : ts.length = ts'.length := h.length_eq
    cases v with
    | array items =>
      rw [violations, violations, hl]
      by_cases hi : items.length = ts'.length
      · rw [if_pos hi, if_pos hi, h.findings_violationsEach hf 0 items]
      · rw [if_neg hi, if_neg hi]
    | _ => simp only [violations, hl]

theorem SimilarFields.findings_violationsFields
    (hf : ∀ name v, findings (follow name v) = findings (follow' name v)) :
    ∀ {fields fields' : List Field}, SimilarFields (· = ·) fields fields' → ∀ (entries : List (String × Json)),
      findings (violationsFields allow follow fields entries) =
        findings (violationsFields allow follow' fields' entries)
  | _, _, .nil, _ => by rw [violationsFields, violationsFields]
  | _, _, @SimilarFields.cons _ name optional _ _ _ _ h hs, entries => by
    rw [violationsFields, violationsFields, findings_append, findings_append,
      hs.findings_violationsFields hf entries]
    congr 1
    cases entries.lookup name with
    | some v => exact findings_under (h.findings_violations hf v) _
    | none => cases optional <;> rfl

theorem SimilarEach.findings_violationsEach (hf : ∀ name v, findings (follow name v) = findings (follow' name v)) :
    ∀ {ts ts' : List Tree}, SimilarEach (· = ·) ts ts' → ∀ (i : Nat) (items : List Json),
      findings (violationsEach allow follow i ts items) = findings (violationsEach allow follow' i ts' items)
  | _, _, .nil, _, _ => by simp only [violationsEach]
  | _, _, .cons _ _, _, [] => by simp only [violationsEach]
  | _, _, .cons h hs, i, v :: items => by
    rw [violationsEach, violationsEach, findings_append, findings_append,
      findings_under (h.findings_violations hf v), hs.findings_violationsEach hf (i + 1) items]

end

end Tree

end Findings

/-- References to similar definitions of the same policies find the same, by induction on the budget. -/
theorem Definitions.Rel.findings_violations {defs defs' : Definitions} (h : Rel (Tree.Similar (· = ·)) defs defs')
    (limit : Nat) : ∀ (budget : Nat) (name : String) (v : Json),
      findings (defs.violations limit budget name v) = findings (defs'.violations limit budget name v)
  | 0, name, v => by
    have hl := h.lookup name
    rw [violations, violations]
    generalize defs.lookup name = found at hl ⊢
    generalize defs'.lookup name = found' at hl ⊢
    cases hl <;> rfl
  | budget + 1, name, v => by
    have hl := h.lookup name
    rw [violations, violations, h.allows_eq budget]
    generalize defs.lookup name = found at hl ⊢
    generalize defs'.lookup name = found' at hl ⊢
    cases hl with
    | none => rfl
    | some ht => exact ht.findings_violations (h.findings_violations limit budget) v

namespace Validator

/-- **Two validators answer alike up to what a violation expected.** -/
structure SameFindings (v w : Validator) : Prop where
  allows : ∀ x, v.allows x = w.allows x
  findings : ∀ x, findings (v.validate x).violations = findings (w.validate x).violations
  valid : ∀ (x : Document) n, v.validate x.value = .valid n ↔ w.validate x.value = .valid n
  shape : v.shape = w.shape

theorem Similar.sameFindings {v w : Validator} (h : v.Similar (· = ·) w) : SameFindings v w where
  allows := h.allows_eq
  findings x := by
    rw [violations_validate, violations_validate]
    unfold violations
    rw [h.maxDepth, h.scope.allows_eq w.maxDepth]
    exact h.root.findings_violations (h.scope.findings_violations w.maxDepth w.maxDepth) x
  valid x n := by
    rw [validate_eq_valid_iff_allows, validate_eq_valid_iff_allows, h.allows_eq x.value]
    exact and_congr_right fun hx => by rw [h.normalize_eq (fun _ _ => Or.inl) hx]
  shape := h.shape_eq

end Validator

namespace Constraint

mutual

/-- The description in which the arrays and tuples at the root of a constraint are descriptions, down to the first other
constraints. -/
def explode : Constraint → Description
  | array c => .array (explode c)
  | tuple cs => .tuple (explodeEach cs)
  | c => .constraint c

def explodeEach : List Constraint → List Description
  | [] => []
  | c :: cs => explode c :: explodeEach cs

end

mutual

/-- The tree that the description becomes. -/
def spread : Constraint → Tree
  | array c => .array (spread c)
  | tuple cs => .tuple (spreadEach cs)
  | c => .leaf c

def spreadEach : List Constraint → List Tree
  | [] => []
  | c :: cs => spread c :: spreadEach cs

end

theorem isOptional_of_checkInner {c : Constraint} (h : c.checkInner = .ok ()) : c.isOptional = false := by
  cases c with
  | optional c => cases h
  | _ => rfl

theorem isOptional_spread {c : Constraint} (h : c.isOptional = false) : c.spread.isOptional = false := by
  cases c with
  | optional c => cases h
  | _ => rfl

section Explode

variable {isDefined : String → Bool} {policy : Policy}

mutual

/-- A well-formed constraint becomes its tree when it is exploded. -/
theorem compiles_explode : ∀ {c : Constraint}, c.checkInner = .ok () →
    (∀ name ∈ c.references, isDefined name = true) → c.explode.Compiles isDefined policy c.spread
  | kind k, h, hd => .constraint h hd
  | range k min max, h, hd => .constraint h hd
  | format f, h, hd => .constraint h hd
  | literal l, h, hd => .constraint h hd
  | union cs, h, hd => .constraint h hd
  | reference name, h, hd => .constraint h hd
  | optional c, h, _ => by cases h
  | array c, h, hd => by
    have hc : c.checkInner = .ok () := h
    exact .array (compiles_explode hc hd) (isOptional_spread (isOptional_of_checkInner hc))
  | tuple cs, h, hd => .tuple (compilesEach_explodeEach (checkAll_eq_ok_iff.1 h) hd)

theorem compilesEach_explodeEach : ∀ {cs : List Constraint}, (∀ c ∈ cs, c.checkInner = .ok ()) →
    (∀ name ∈ referencesAll cs, isDefined name = true) →
      Description.CompilesEach isDefined policy (explodeEach cs) (spreadEach cs)
  | [], _, _ => .nil
  | c :: cs, h, hd => by
    rw [List.forall_mem_cons] at h
    rw [referencesAll, List.forall_mem_append] at hd
    have hc : c.explode.Compiles isDefined policy c.spread := compiles_explode h.1 hd.1
    exact .cons hc (isOptional_spread (isOptional_of_checkInner h.1)) (compilesEach_explodeEach h.2 hd.2)

end

end Explode

end Constraint

namespace Tree

variable {P : Policy → Policy → Prop}

mutual

/-- **A constraint in a leaf is similar to the tree of its arrays and tuples.** -/
theorem similar_spread : ∀ (c : Constraint), Similar P (leaf c) c.spread
  | .kind _ | .range _ _ _ | .format _ | .literal _ | .union _ | .optional _ | .reference _ => .leaf _
  | .array c => .leafArray (similar_spread c)
  | .tuple cs => .leafTuple (similarEach_spreadEach cs)

theorem similarEach_spreadEach : ∀ (cs : List Constraint), SimilarEach P (cs.map leaf) (Constraint.spreadEach cs)
  | [] => .nil
  | c :: cs => .cons (similar_spread c) (similarEach_spreadEach cs)

end

end Tree

namespace Constraint

open Validator (SameFindings)

variable {n : Constraint}

theorem checkInner_of_check (h : n.check = .ok ()) (ho : n.isOptional = false) : n.checkInner = .ok () := by
  cases n with
  | optional c => cases ho
  | _ => exact h

/-- A constraint and what it explodes to lower to similar trees, where its references are defined. -/
theorem lowersAlike_explode {read : Reading} {isDefined : String → Bool} (hr : Reading.Sound isDefined read)
    (hc : n.check = .ok ()) (ho : n.isOptional = false) (hd : ∀ name ∈ n.references, isDefined name = true)
    (policy : Policy) : Description.LowersAlike Lowering.BothSound (Tree.Similar (· = ·)) read read isDefined policy
      policy (.constraint n) n.explode :=
  Description.lowersAlike_of_compiles hr (.constraint hc hd) (compiles_explode (checkInner_of_check hc ho) hd)
    (Tree.similar_spread n)

/-- A constraint without references and what it explodes to compile on their own. -/
theorem sameFindings_compile_explode (hc : n.check = .ok ()) (ho : n.isOptional = false) (hnone : n.references = [])
    {c : Compiler} (hreached : c.Reached) : ∃ v w, (c.compile (.constraint n)).1 = .ok v ∧
      (c.compile n.explode).1 = .ok w ∧ v.SameFindings w := by
  have hd : ∀ r ∈ n.references, (fun _ => false : String → Bool) r = true := by
    rw [hnone]
    exact nofun
  have hv := hreached.compile_eq_ok (.constraint hc hd)
  have hw := hreached.compile_eq_ok (compiles_explode (checkInner_of_check hc ho) hd)
  have hsimilar : Validator.Similar (· = ·) ⟨.leaf n, none, c.options.maxDepth⟩ ⟨n.spread, none, c.options.maxDepth⟩ :=
    ⟨Tree.similar_spread n, .nil, rfl⟩
  exact ⟨_, _, hv, hw, hsimilar.sameFindings⟩

section Scope

variable {s s₁ : Scope} {options : Options} {compiled : CompiledScope} {name : String}

theorem compiles_of_mem {names : List String} {policy : Policy} (hc : n.check = .ok ())
    (hd : ∀ r ∈ n.references, r ∈ names) : (Description.constraint n).Compiles names.contains policy (.leaf n) :=
  .constraint hc fun r hr => List.contains_iff_mem.2 (hd r hr)

/-- **In a scope, wherever one may be written**, the constraint and what it explodes to compile with one error or to
validators that answer alike up to what a violation expected. -/
theorem sameResult_explode (hc : n.check = .ok ()) (ho : n.isOptional = false) (hd : ∀ r ∈ n.references, r ∈ s.names)
    (options : Options) (name : String) (context : Description.Context) :
      SameResult (CompiledScope.Rel s.names SameFindings)
        ((s.redefine name (context.fill (.constraint n))).compile options)
        ((s.redefine name (context.fill n.explode)).compile options) := by
  have hS : Tree.Congruence options.policy options.policy (Tree.Similar (· = ·)) :=
    Tree.Similar.congruence (fun _ => rfl) rfl
  have hr := sound_readScoped s.names.contains
  have hhole := lowersAlike_explode hr hc ho (fun r hr => List.contains_iff_mem.2 (hd r hr)) options.policy
  have halike := s.lowersAlike_redefine hS name (context.lowersAlike_fill hS hr.alike hhole)
  rw [← s.names_redefine name (context.fill (.constraint n))] at halike ⊢
  have hsame : SameResult _ ((s.redefine name (context.fill (.constraint n))).compile options)
      ((s.redefine name (context.fill n.explode)).compile options) := Scope.similar_compile rfl halike
  exact hsame.imp fun _ _ h => h.imp fun _ _ => Validator.Similar.sameFindings

/-- Where a scope compiles with the constraint under a name, it does with what the constraint explodes to. -/
theorem exists_compile_explode (hc : n.check = .ok ()) (ho : n.isOptional = false) (hd : ∀ r ∈ n.references, r ∈ s.names)
    (h : (s.redefine name (.constraint n)).compile options = .ok compiled) :
      ∃ compiled', (s.redefine name n.explode).compile options = .ok compiled' ∧
        CompiledScope.Rel s.names SameFindings compiled compiled' := by
  have hsame := sameResult_explode hc ho hd options name .hole
  rw [Description.Context.fill, Description.Context.fill, h] at hsame
  exact hsame.exists_of_ok

/-- Where a scope compiles, it does with a constraint under one of its names that follows nothing before the items of a
value, and with what this explodes to. -/
theorem exists_compile_explode_redefine (hc : n.check = .ok ()) (ho : n.isOptional = false) (hheads : n.heads = [])
    (hd : ∀ r ∈ n.references, r ∈ s.names) (h : s.compile options = .ok compiled) (name : String) :
      ∃ compiled₁ compiled₂, (s.redefine name (.constraint n)).compile options = .ok compiled₁ ∧
        (s.redefine name n.explode).compile options = .ok compiled₂ ∧
          CompiledScope.Rel s.names SameFindings compiled₁ compiled₂ := by
  obtain ⟨compiled₁, h₁⟩ := Scope.exists_compile_redefine h name (compiles_of_mem hc hd) hheads
  obtain ⟨compiled₂, h₂, hfindings⟩ := exists_compile_explode hc ho hd h₁
  exact ⟨compiled₁, compiled₂, h₁, h₂, hfindings⟩

/-- A scope that compiles does so with the constraint under a new name, and with what it explodes to. -/
theorem exists_compile_explode_define (hc : n.check = .ok ()) (ho : n.isOptional = false)
    (he : ∀ e ∈ s.definitions, ∀ u ∈ e.2.embedded, u.Compiled) (hd : ∀ r ∈ n.references, r ∈ s.names)
    (h : s.compile options = .ok compiled) (hdefine : s.define name (.constraint n) = .ok s₁) :
      ∃ s₂ compiled₁ compiled₂, s.define name n.explode = .ok s₂ ∧ s₁.compile options = .ok compiled₁ ∧
        s₂.compile options = .ok compiled₂ ∧ CompiledScope.Rel s₁.names SameFindings compiled₁ compiled₂ := by
  obtain ⟨compiled₁, h₁⟩ := Scope.exists_compile_define he h hdefine (compiles_of_mem hc hd) hd
  have hd₁ : ∀ r ∈ n.references, r ∈ s₁.names := fun r hr =>
    Scope.names_define hdefine ▸ List.mem_append_left _ (hd r hr)
  have hself : s₁.redefine name (.constraint n) = s₁ :=
    Except.ok.inj ((Scope.define_eq_redefine hdefine _).symm.trans hdefine)
  obtain ⟨compiled₂, h₂, hfindings⟩ := exists_compile_explode hc ho hd₁ (hself.symm ▸ h₁)
  exact ⟨_, compiled₁, compiled₂, Scope.define_eq_redefine hdefine _, h₁, h₂, hfindings⟩

end Scope

/-- **Arrays and tuples inside an expression agree with their descriptions.**  Without references the two compile on
their own, and answer alike up to what a violation expected; in a scope, wherever they are written, they compile with
one error or answer alike so, under each of its names.  Where the scope compiles without them, both compile under a new
name, and in place of any definition if they follow nothing before the items of a value, as no array or tuple does. -/
theorem explode_agrees (hc : n.check = .ok ()) (ho : n.isOptional = false) :
    (n.references = [] → ∀ c : Compiler, c.Reached → ∃ v w, (c.compile (.constraint n)).1 = .ok v ∧
      (c.compile n.explode).1 = .ok w ∧ v.SameFindings w) ∧
    ∀ (s : Scope) (options : Options), (∀ r ∈ n.references, r ∈ s.names) →
      (∀ name ∈ s.names, ∀ context : Description.Context, SameResult (CompiledScope.Rel s.names SameFindings)
        ((s.redefine name (context.fill (.constraint n))).compile options)
        ((s.redefine name (context.fill n.explode)).compile options)) ∧
      ∀ compiled, s.compile options = .ok compiled →
        (∀ name ∈ s.names, n.heads = [] →
          ∃ compiled₁ compiled₂, (s.redefine name (.constraint n)).compile options = .ok compiled₁ ∧
            (s.redefine name n.explode).compile options = .ok compiled₂ ∧
              CompiledScope.Rel s.names SameFindings compiled₁ compiled₂) ∧
        ∀ name s₁, (∀ e ∈ s.definitions, ∀ u ∈ e.2.embedded, u.Compiled) → s.define name (.constraint n) = .ok s₁ →
          ∃ s₂ compiled₁ compiled₂, s.define name n.explode = .ok s₂ ∧ s₁.compile options = .ok compiled₁ ∧
            s₂.compile options = .ok compiled₂ ∧ CompiledScope.Rel s₁.names SameFindings compiled₁ compiled₂ := by
  refine ⟨fun hnone c hreached => sameFindings_compile_explode hc ho hnone hreached, fun s options hd => ⟨?_, ?_⟩⟩
  · intro name _ context
    exact sameResult_explode hc ho hd options name context
  · intro compiled h
    refine ⟨fun name _ hheads => ?_, fun name s₁ he hdefine => ?_⟩
    · exact exists_compile_explode_redefine hc ho hheads hd h name
    · exact exists_compile_explode_define hc ho he hd h hdefine

/-- Pairs of a text and a key. -/
def labels : Constraint := .array (.tuple [.kind .string, .reference "Key"])

def keys : Scope where
  definitions := [("Key", .constraint (.kind .string))]

/-- Labels beside keys. -/
def keysAndLabels : Scope where
  definitions := keys.definitions ++ [("Labels", .constraint labels)]

/-- The validator of labels beside keys, for the tree that they become. -/
def labelsAs (t : Tree) : Validator := ⟨t, some [("Key", .leaf (.kind .string)), ("Labels", t)], 100⟩

/-- Labels in an expression and in descriptions answer alike: for what is no array both say so, though not in one way,
and of the pairs both refuse the second. -/
theorem explode_agrees_labels : labels.check = .ok () ∧ labels.isOptional = false ∧
    keys.define "Labels" (.constraint labels) = .ok keysAndLabels ∧
    (labelsAs (.leaf labels)).SameFindings (labelsAs labels.spread) ∧
    ((labelsAs (.leaf labels)).validate .null).violations = [⟨[], .typeMismatch, "[string, Key][]", "null"⟩] ∧
    ((labelsAs labels.spread).validate .null).violations = [⟨[], .typeMismatch, "array", "null"⟩] ∧
    findings ((labelsAs labels.spread).validate (.array [.array [.string "a", .string "b"], .array []])).violations =
      [([.index 1], .typeMismatch, "array of length 0")] := by
  have he : ∀ e ∈ keys.definitions, ∀ u ∈ e.2.embedded, u.Compiled := by
    simp [keys, Description.embedded]
  have hkeys : keys.compile {} = .ok ⟨[("Key", .leaf (.kind .string))], 100⟩ := rfl
  have hagrees := explode_agrees (n := labels) rfl rfl
  obtain ⟨-, hcompiles⟩ := hagrees.2 keys {} (by decide)
  obtain ⟨s₂, compiled₁, compiled₂, hs₂, h₁, h₂, hsame⟩ := (hcompiles _ hkeys).2 "Labels" _ he rfl
  cases hs₂
  cases h₁
  cases h₂
  obtain ⟨v, w, hv, hw, h⟩ := hsame "Labels" (by decide)
  cases hv
  cases hw
  exact ⟨rfl, rfl, rfl, h, rfl, rfl, rfl⟩

end Constraint

end Assay
