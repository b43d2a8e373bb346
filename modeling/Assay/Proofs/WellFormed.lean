import Assay.Proofs.Closed
import Assay.Proofs.Fields
import Assay.Proofs.Sources
/-!
# What compilation leaves

Every tree that is compiled is well formed (`Tree.WellFormed`): an optional marker stands at its root or nowhere, each
leaf passes its check, each reference has a definition and no object has two fields of one name.  Without constraints
and policies it is the description over again (`Description.Compiles.outline_eq`).  Marker and checks are one invariant
of compilation, that nothing inside a leaf is refused (`Tree.Checked`), as only a marker at the root can be set aside.
-/
namespace Assay

namespace Constraint

mutual

/-- The constraint and all constraints inside it. -/
def nodes : Constraint → List Constraint
  | union cs => union cs :: nodesAll cs
  | array c => array c :: nodes c
  | tuple cs => tuple cs :: nodesAll cs
  | optional c => optional c :: nodes c
  | kind k => [kind k]
  | range k min max => [range k min max]
  | format f => [format f]
  | literal l => [literal l]
  | reference n => [reference n]

def nodesAll : List Constraint → List Constraint
  | [] => []
  | c :: cs => nodes c ++ nodesAll cs

end

theorem mem_nodes_self (c : Constraint) : c ∈ c.nodes := by
  cases c <;> simp [nodes]

mutual

theorem mem_references_iff {name : String} : ∀ (c : Constraint), name ∈ c.references ↔ reference name ∈ c.nodes
  | kind _ => by simp [references, nodes]
  | range _ _ _ => by simp [references, nodes]
  | format _ => by simp [references, nodes]
  | literal _ => by simp [references, nodes]
  | reference n => by simp [references, nodes]
  | union cs => by simpa [references, nodes] using mem_referencesAll_iff_nodesAll cs
  | tuple cs => by simpa [references, nodes] using mem_referencesAll_iff_nodesAll cs
  | array c => by simpa [references, nodes] using mem_references_iff c
  | optional c => by simpa [references, nodes] using mem_references_iff c

theorem mem_referencesAll_iff_nodesAll {name : String} : ∀ (cs : List Constraint),
    name ∈ referencesAll cs ↔ reference name ∈ nodesAll cs
  | [] => by simp [referencesAll, nodesAll]
  | c :: cs => by
    rw [referencesAll, nodesAll, List.mem_append, List.mem_append, mem_references_iff c,
      mem_referencesAll_iff_nodesAll cs]

end

mutual

/-- **Nothing inside a constraint is refused that is not refused itself.** -/
theorem checkInner_of_mem_nodes : ∀ {c : Constraint}, c.checkInner = .ok () → ∀ u ∈ c.nodes, u.checkInner = .ok ()
  | kind _, _, u, hu => by rw [List.mem_singleton.1 hu]; rfl
  | range _ _ _, h, u, hu => by rw [List.mem_singleton.1 hu]; exact h
  | format _, _, u, hu => by rw [List.mem_singleton.1 hu]; rfl
  | literal _, _, u, hu => by rw [List.mem_singleton.1 hu]; rfl
  | reference _, _, u, hu => by rw [List.mem_singleton.1 hu]; rfl
  | optional _, h, _, _ => by cases h
  | array c, h, u, hu => by
    rcases List.mem_cons.1 hu with rfl | hu
    · exact h
    · exact checkInner_of_mem_nodes (c := c) h u hu
  | union cs, h, u, hu => by
    rcases List.mem_cons.1 hu with rfl | hu
    · exact h
    · exact checkInner_of_mem_nodesAll (checkInner_union_eq_ok_iff.1 h).2 u hu
  | tuple cs, h, u, hu => by
    rcases List.mem_cons.1 hu with rfl | hu
    · exact h
    · exact checkInner_of_mem_nodesAll (checkAll_eq_ok_iff.1 h) u hu

theorem checkInner_of_mem_nodesAll : ∀ {cs : List Constraint}, (∀ c ∈ cs, c.checkInner = .ok ()) →
    ∀ u ∈ nodesAll cs, u.checkInner = .ok ()
  | c :: cs, h, u, hu => by
    rw [nodesAll] at hu
    rcases List.mem_append.1 hu with hu | hu
    · exact checkInner_of_mem_nodes (h c List.mem_cons_self) u hu
    · exact checkInner_of_mem_nodesAll (fun d hd => h d (List.mem_cons_of_mem _ hd)) u hu

end

theorem check_of_checkInner {c : Constraint} (h : c.checkInner = .ok ()) : c.check = .ok () := by
  cases c with
  | optional c => cases h
  | _ => exact h

theorem checkInner_splitOptional {c : Constraint} (h : c.check = .ok ()) : c.splitOptional.1.checkInner = .ok () := by
  cases c <;> exact h

/-- What is read from an expression passes its check. -/
theorem check_of_parse {isDefined : String → Bool} {text : String} {c : Constraint} (h : parse isDefined text = .ok c) :
    c.check = .ok () := by
  unfold parse at h
  obtain ⟨ts, -, ht⟩ := except_bind_eq_ok_iff.1 h
  exact (ofTokens_eq_ok_iff.1 ht).check_eq_ok

end Constraint

namespace Tree

mutual

/-- The constraints at the leaves of the tree. -/
def leaves : Tree → List Constraint
  | leaf c => [c]
  | object fields _ => leavesFields fields
  | array t => leaves t
  | tuple ts => leavesEach ts

def leavesFields : List Field → List Constraint
  | [] => []
  | ⟨_, _, t⟩ :: fields => leaves t ++ leavesFields fields

def leavesEach : List Tree → List Constraint
  | [] => []
  | t :: ts => leaves t ++ leavesEach ts

end

/-- All constraints in the tree, those inside others included. -/
def nodes (t : Tree) : List Constraint := t.leaves.flatMap Constraint.nodes

theorem mem_leavesFields_iff {c : Constraint} : ∀ {fields : List Field},
    c ∈ leavesFields fields ↔ ∃ f ∈ fields, c ∈ f.node.leaves
  | [] => by simp [leavesFields]
  | ⟨_, _, t⟩ :: fields => by rw [leavesFields, List.mem_append, mem_leavesFields_iff, List.exists_mem_cons_iff]

theorem mem_leavesEach_iff {c : Constraint} : ∀ {ts : List Tree}, c ∈ leavesEach ts ↔ ∃ t ∈ ts, c ∈ t.leaves
  | [] => by simp [leavesEach]
  | t :: ts => by rw [leavesEach, List.mem_append, mem_leavesEach_iff, List.exists_mem_cons_iff]

mutual

theorem references_eq_flatMap : ∀ (t : Tree), t.references = t.leaves.flatMap Constraint.references
  | leaf c => by simp [references, leaves]
  | object fields _ => referencesFields_eq_flatMap fields
  | array t => references_eq_flatMap t
  | tuple ts => referencesEach_eq_flatMap ts

theorem referencesFields_eq_flatMap : ∀ (fields : List Field),
    referencesFields fields = (leavesFields fields).flatMap Constraint.references
  | [] => rfl
  | ⟨_, _, t⟩ :: fields => by
    rw [referencesFields, leavesFields, List.flatMap_append, references_eq_flatMap t,
      referencesFields_eq_flatMap fields]

theorem referencesEach_eq_flatMap : ∀ (ts : List Tree),
    referencesEach ts = (leavesEach ts).flatMap Constraint.references
  | [] => rfl
  | t :: ts => by
    rw [referencesEach, leavesEach, List.flatMap_append, references_eq_flatMap t, referencesEach_eq_flatMap ts]

end

/-- The names that a tree refers to are those of the references in it. -/
theorem mem_references_iff {name : String} {t : Tree} : name ∈ t.references ↔ .reference name ∈ t.nodes := by
  rw [references_eq_flatMap, nodes, List.mem_flatMap, List.mem_flatMap]
  exact exists_congr fun c => and_congr_right fun _ => c.mem_references_iff

/-- Apart from an optional marker at the root, nothing in the tree is refused. -/
def Checked (t : Tree) : Prop := ∀ c ∈ t.splitOptional.1.leaves, c.checkInner = .ok ()

/-- **What stands in a checked tree** is the marked leaf that is its root, or is not refused. -/
theorem Checked.nodes_cases {t : Tree} (h : t.Checked) {u : Constraint} (hu : u ∈ t.nodes) :
    (t = leaf u ∧ u.check = .ok () ∧ u.isOptional = true) ∨ u.checkInner = .ok () := by
  unfold nodes at hu
  cases ho : t.isOptional with
  | false =>
    obtain ⟨c, hc, hu⟩ := List.mem_flatMap.1 hu
    rw [Checked, splitOptional_of_isOptional_eq_false ho] at h
    exact Or.inr (Constraint.checkInner_of_mem_nodes (h c hc) u hu)
  | true =>
    cases t with
    | leaf c =>
      cases c with
      | optional c =>
        have hc : c.checkInner = .ok () := h c (List.mem_singleton.2 rfl)
        obtain ⟨d, hd, hu⟩ := List.mem_flatMap.1 hu
        rw [List.mem_singleton.1 hd] at hu
        rcases List.mem_cons.1 hu with rfl | hu
        · exact Or.inl ⟨rfl, hc, rfl⟩
        · exact Or.inr (Constraint.checkInner_of_mem_nodes hc u hu)
      | _ => cases ho
    | _ => cases ho

/-- **A tree as compilation leaves it**, where `names` have definitions. -/
structure WellFormed (names : List String) (t : Tree) : Prop where
  /-- An optional marker stands nowhere but at a leaf that is the whole tree. -/
  marker : ∀ c, .optional c ∈ t.nodes → t = .leaf (.optional c)
  leaves : ∀ c ∈ t.leaves, c.check = .ok ()
  unions : ∀ cs, .union cs ∈ t.nodes → 2 ≤ cs.length
  ranges : ∀ k min max, .range k min max ∈ t.nodes → RangeFits k min max
  references : ∀ name, .reference name ∈ t.nodes → name ∈ names
  fields : t.distinctFields = true

theorem Checked.wellFormed {t : Tree} {names : List String} (h : t.Checked)
    (hr : ∀ name ∈ t.references, name ∈ names) (hf : t.distinctFields = true) : t.WellFormed names where
  marker c hc := by
    rcases h.nodes_cases hc with ⟨ht, -⟩ | he
    · exact ht
    · cases he
  leaves c hc := by
    rcases h.nodes_cases (List.mem_flatMap.2 ⟨c, hc, c.mem_nodes_self⟩) with ⟨-, he, -⟩ | he
    · exact he
    · exact Constraint.check_of_checkInner he
  unions cs hc := by
    rcases h.nodes_cases hc with ⟨-, -, ho⟩ | he
    · cases ho
    · exact (Constraint.checkInner_union_eq_ok_iff.1 he).1
  ranges k min max hc := by
    rcases h.nodes_cases hc with ⟨-, -, ho⟩ | he
    · cases ho
    · exact Constraint.checkRange_eq_ok_iff.1 he
  references name hn := hr name (mem_references_iff.2 hn)
  fields := hf

end Tree

/-- The structure of a schema without its constraints and policies: which fields are declared where, and in which
order. -/
inductive Outline
  | leaf
  | object (fields : List (String × Outline))
  | array (item : Outline)
  | tuple (items : List Outline)

namespace Tree

mutual

def outline : Tree → Outline
  | leaf _ => .leaf
  | object fields _ => .object (outlineFields fields)
  | array t => .array (outline t)
  | tuple ts => .tuple (outlineEach ts)

def outlineFields : List Field → List (String × Outline)
  | [] => []
  | ⟨name, _, t⟩ :: fields => (name, outline t) :: outlineFields fields

def outlineEach : List Tree → List Outline
  | [] => []
  | t :: ts => outline t :: outlineEach ts

end

theorem outline_splitOptional (t : Tree) : t.splitOptional.1.outline = t.outline := by
  cases t <;> rfl

end Tree

namespace Description

mutual

/-- The structure that a description writes down; a validator inside it brings its own. -/
def outline : Description → Outline
  | expression _ => .leaf
  | constraint _ => .leaf
  | object fields _ => .object (outlineFields fields)
  | array item => .array (outline item)
  | tuple items => .tuple (outlineEach items)
  | compiled v => v.root.outline

def outlineFields : List FieldDescription → List (String × Outline)
  | [] => []
  | ⟨name, d, _⟩ :: fields => (name, outline d) :: outlineFields fields

def outlineEach : List Description → List Outline
  | [] => []
  | d :: items => outline d :: outlineEach items

end

variable {isDefined : String → Bool} {policy : Policy}

mutual

/-- **A description becomes a tree of the same outline.** -/
theorem Compiles.outline_eq : ∀ {d : Description} {t : Tree}, Compiles isDefined policy d t → t.outline = d.outline
  | _, _, .expression _ => rfl
  | _, _, .constraint _ _ => rfl
  | _, _, .object hf => congrArg Outline.object hf.outline_eq
  | _, _, .array ht _ => congrArg Outline.array ht.outline_eq
  | _, _, .tuple hts => congrArg Outline.tuple hts.outline_eq
  | _, _, .compiled _ => rfl

theorem CompilesFields.outline_eq : ∀ {declared : List String} {fields : List FieldDescription} {trees : List Field},
    CompilesFields isDefined policy declared fields trees → Tree.outlineFields trees = outlineFields fields
  | _, _, _, .nil _ => rfl
  | _, _, _, .cons ht _ hts => by
    rw [Tree.outlineFields, outlineFields, Tree.outline_splitOptional, ht.outline_eq, hts.outline_eq]

theorem CompilesEach.outline_eq : ∀ {items : List Description} {trees : List Tree},
    CompilesEach isDefined policy items trees → Tree.outlineEach trees = outlineEach items
  | _, _, .nil => rfl
  | _, _, .cons ht _ hts => by rw [Tree.outlineEach, outlineEach, ht.outline_eq, hts.outline_eq]

end

mutual

/-- **A description becomes a checked tree**, as the validators inside it are: what goes below a marker loses its
own. -/
theorem Compiles.checked : ∀ {d : Description} {t : Tree}, Compiles isDefined policy d t →
    (∀ v ∈ d.embedded, v.root.Checked) → t.Checked
  | _, _, .expression hp, _ => fun _ hc =>
    List.mem_singleton.1 hc ▸ Constraint.checkInner_splitOptional (Constraint.check_of_parse hp)
  | _, _, .constraint hk _, _ => fun _ hc => List.mem_singleton.1 hc ▸ Constraint.checkInner_splitOptional hk
  | _, _, .object hf, he => fun c hc => by
    obtain ⟨f, hm, hc⟩ := Tree.mem_leavesFields_iff.1 hc
    exact hf.checked he f hm c hc
  | _, _, .array ht ho, he => fun c hc => by
    have hchecked := ht.checked he
    rw [Tree.Checked, Tree.splitOptional_of_isOptional_eq_false ho] at hchecked
    exact hchecked c hc
  | _, _, .tuple hts, he => fun c hc => by
    obtain ⟨t, hm, hc⟩ := Tree.mem_leavesEach_iff.1 hc
    exact hts.checked he t hm c hc
  | _, _, .compiled _, he => he _ List.mem_cons_self

theorem CompilesFields.checked : ∀ {declared : List String} {fields : List FieldDescription} {trees : List Field},
    CompilesFields isDefined policy declared fields trees → (∀ v ∈ embeddedFields fields, v.root.Checked) →
      ∀ f ∈ trees, ∀ c ∈ f.node.leaves, c.checkInner = .ok ()
  | _, _, _, .nil _, _ => fun _ hm => nomatch hm
  | _, _, _, .cons ht _ hts, he => by
    rw [embeddedFields] at he
    exact List.forall_mem_cons.2 ⟨ht.checked fun v hv => he v (List.mem_append_left _ hv),
      hts.checked fun v hv => he v (List.mem_append_right _ hv)⟩

theorem CompilesEach.checked : ∀ {items : List Description} {trees : List Tree},
    CompilesEach isDefined policy items trees → (∀ v ∈ embeddedEach items, v.root.Checked) →
      ∀ t ∈ trees, ∀ c ∈ t.leaves, c.checkInner = .ok ()
  | _, _, .nil, _ => fun _ hm => nomatch hm
  | _, _, .cons ht ho hts, he => by
    rw [embeddedEach] at he
    have hchecked := ht.checked fun v hv => he v (List.mem_append_left _ hv)
    rw [Tree.Checked, Tree.splitOptional_of_isOptional_eq_false ho] at hchecked
    exact List.forall_mem_cons.2 ⟨hchecked, hts.checked fun v hv => he v (List.mem_append_right _ hv)⟩

end

end Description

namespace Validator

/-- The validator is that of the description, compiled alone or as a definition of a scope, and every validator inside
was compiled before. -/
inductive CompiledFrom (d : Description) (v : Validator) : Prop
  | alone {c : Compiler} : c.Reached → (∀ u ∈ d.embedded, u.Compiled) → (c.compile d).1 = .ok v → CompiledFrom d v
  | ofScope {s : Scope} {options : Options} {compiled : CompiledScope} {name : String} :
    (∀ e ∈ s.definitions, ∀ u ∈ e.2.embedded, u.Compiled) → s.compile options = .ok compiled →
      s.definitions.lookup name = some d → compiled.validator? name = some v → CompiledFrom d v

variable {d : Description} {v : Validator}

theorem CompiledFrom.compiled : v.CompiledFrom d → v.Compiled
  | .alone hc he hv => .alone hc he hv
  | .ofScope he hs _ hl => .ofScope he hs hl

theorem CompiledFrom.outline_eq (h : v.CompiledFrom d) : v.root.outline = d.outline := by
  cases h with
  | alone hc _ hv =>
    obtain ⟨root, rfl, ht⟩ := hc.compiles hv
    exact ht.outline_eq
  | ofScope _ hs hd hl =>
    obtain ⟨t, ht, hct⟩ := Scope.compiles_of_lookup hs hd
    rw [CompiledScope.validator?, ht] at hl
    cases hl
    exact hct.outline_eq

/-- **In every validator that there is, what is referred to has a definition.** -/
theorem Compiled.closed (h : v.Compiled) : v.Closed := by
  cases h with
  | alone hc he hv =>
    have hn := (Compiled.alone hc he hv).references_eq_nil
    obtain ⟨root, rfl, -⟩ := hc.compiles hv
    refine ⟨fun name hr => ?_, fun _ _ hl => nomatch hl⟩
    rw [hn rfl] at hr
    cases hr
  | @ofScope s _ compiled _ _ he hs hl =>
    have hd : ∀ name t, compiled.definitions.lookup name = some t → ∀ n ∈ t.references,
        n ∈ compiled.definitions.map (·.1) := fun name t ht n hn => by
      have hnames : s.names = compiled.definitions.map (·.1) := (Scope.names_compile hs).symm
      exact hnames ▸ mem_names_of_mem_references he hs ht hn
    unfold CompiledScope.validator? at hl
    obtain ⟨root, ht, rfl⟩ := Option.map_eq_some_iff.1 hl
    exact ⟨hd _ root ht, hd⟩

/-- Root and definitions are as compilation leaves them, and refer to definitions of the validator's own. -/
structure WellFormed (v : Validator) : Prop where
  root : v.root.WellFormed (v.scope.map (·.1))
  scope : ∀ name t, v.scope.lookup name = some t → t.WellFormed (v.scope.map (·.1))

theorem Compiled.wellFormed (h : v.Compiled) : v.WellFormed := by
  obtain ⟨hroot, hscope⟩ := h.trees fun ht he => ht.checked he
  have hclosed := h.closed
  have hdistinct := h.distinctFields
  exact ⟨hroot.wellFormed hclosed.root hdistinct.root, fun name t ht =>
    (hscope name t ht).wellFormed (hclosed.scope name t ht) (hdistinct.scope name t ht)⟩

/-- **Everything that is compiled is well formed.**  All trees of the validator are, its own has the outline of its
description, and no run of it comes to a name without a definition. -/
theorem compiledFrom_wellFormed (h : v.CompiledFrom d) : v.WellFormed ∧ v.root.outline = d.outline ∧
    ∀ x, v.allows? x = some (v.allows x) ∧ v.validate? x = some (v.validate x) := by
  have hc := h.compiled
  exact ⟨hc.wellFormed, h.outline_eq, fun x => ⟨hc.closed.allows?_eq x, hc.closed.validate?_eq x⟩⟩

/-- Estimates in whole numbers from zero on, which may be left out. -/
def estimate : Constraint := .optional (.range .integer (some ⟨.finite .zero, true⟩) none)

def estimateValidator : Validator := ⟨.leaf estimate, none, 100⟩

theorem compiled_estimateValidator : estimateValidator.Compiled :=
  .alone (.new {}) (d := .constraint estimate) (fun _ h => nomatch h) rfl

/-- Tasks with an estimate and, perhaps, with steps that are tasks again. -/
def task : Description :=
  .object [⟨"estimate", .compiled estimateValidator, false⟩,
    ⟨"steps", .constraint (.optional (.union [.array (.reference "Task"), .literal .null])), false⟩] none

def taskTree : Tree :=
  .object [⟨"estimate", true, .leaf (.range .integer (some ⟨.finite .zero, true⟩) none)⟩,
    ⟨"steps", true, .leaf (.union [.array (.reference "Task"), .literal .null])⟩] .strip

def taskValidator : Validator := ⟨taskTree, some [("Task", taskTree)], 100⟩

def tasks : Scope where
  definitions := [("Task", task)]

theorem tasks_compile : tasks.compile ⟨.strip, 100⟩ = .ok ⟨[("Task", taskTree)], 100⟩ := rfl

theorem compiledFrom_task : taskValidator.CompiledFrom task := by
  have he : ∀ e ∈ tasks.definitions, ∀ u ∈ e.2.embedded, u.Compiled :=
    List.forall_mem_singleton.2 fun u hu => by
      rw [List.mem_singleton.1 (show u ∈ [estimateValidator] from hu)]
      exact compiled_estimateValidator
  have hd : tasks.definitions.lookup "Task" = some task := rfl
  exact .ofScope he tasks_compile hd rfl

/-- The markers of the validator inside and of the constraint have gone to the fields, and the reference is to the tasks
themselves. -/
theorem compiledFrom_wellFormed_task : taskValidator.CompiledFrom task ∧ taskValidator.WellFormed ∧
    taskTree.outline = .object [("estimate", .leaf), ("steps", .leaf)] ∧
      ∀ x, taskValidator.allows? x = some (taskValidator.allows x) ∧
        taskValidator.validate? x = some (taskValidator.validate x) := by
  obtain ⟨hw, ho, hr⟩ := compiledFrom_wellFormed compiledFrom_task
  exact ⟨compiledFrom_task, hw, ho, hr⟩

end Validator

end Assay
