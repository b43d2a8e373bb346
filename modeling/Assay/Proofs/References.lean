import Assay.Proofs.Compilation
import Assay.Proofs.Parts
import Assay.Proofs.Reading
/-!
# References

What a constraint or a tree allows depends on no other names than those it refers to
(`Tree.allows_congr_of_references`), and whatever a description becomes refers to defined names alone
(`Description.Compiles.isDefined_of_mem`), as long as the validators inside it do.
-/
namespace Assay

namespace Constraint

theorem mem_referencesAll_iff {name : String} {cs : List Constraint} :
    name ∈ referencesAll cs ↔ ∃ c ∈ cs, name ∈ c.references := by
  induction cs with
  | nil => simp [referencesAll]
  | cons c cs ih => rw [referencesAll, List.mem_append, ih, List.exists_mem_cons_iff]

mutual

/-- Nothing is followed first that is not referred to. -/
theorem heads_subset : ∀ (c : Constraint), c.heads ⊆ c.references
  | reference _ => List.Subset.refl _
  | optional c => heads_subset c
  | union cs => headsAll_subset cs
  | kind _ | range _ _ _ | format _ | literal _ | array _ | tuple _ => List.nil_subset _

theorem headsAll_subset : ∀ (cs : List Constraint), headsAll cs ⊆ referencesAll cs
  | [] => List.nil_subset _
  | c :: cs => List.append_subset.2 ⟨List.Subset.trans (heads_subset c) (List.subset_append_left _ _),
    List.Subset.trans (headsAll_subset cs) (List.subset_append_right _ _)⟩

end

variable {f g : String → Json → Bool}

mutual

theorem allows_congr_of_references : ∀ (c : Constraint), (∀ name ∈ c.references, f name = g name) → ∀ v,
    c.allows f v = c.allows g v
  | kind _, _, _ => rfl
  | range _ _ _, _, _ => rfl
  | format _, _, _ => rfl
  | literal _, _, _ => rfl
  | reference n, h, v => congrFun (h n List.mem_cons_self) v
  | optional c, h, v => by
    rw [allows, allows]
    exact allows_congr_of_references c h v
  | union cs, h, v => by
    rw [allows, allows]
    exact allowsAny_congr_of_references cs h v
  | array c, h, v => by
    cases v with
    | array items =>
      have ih := allows_congr_of_references c h
      rw [allows, allows, funext ih]
    | _ => rfl
  | tuple cs, h, v => by
    cases v with
    | array items =>
      rw [allows, allows]
      exact allowsEach_congr_of_references cs h items
    | _ => rfl

theorem allowsAny_congr_of_references : ∀ (cs : List Constraint), (∀ name ∈ referencesAll cs, f name = g name) →
    ∀ v, allowsAny f cs v = allowsAny g cs v
  | [], _, _ => rfl
  | c :: cs, h, v => by
    rw [referencesAll] at h
    rw [allowsAny, allowsAny, allows_congr_of_references c (fun name hn => h name (List.mem_append_left _ hn)),
      allowsAny_congr_of_references cs (fun name hn => h name (List.mem_append_right _ hn))]

theorem allowsEach_congr_of_references : ∀ (cs : List Constraint), (∀ name ∈ referencesAll cs, f name = g name) →
    ∀ vs, allowsEach f cs vs = allowsEach g cs vs
  | [], _, vs => by cases vs <;> rfl
  | _ :: _, _, [] => rfl
  | c :: cs, h, v :: vs => by
    rw [referencesAll] at h
    rw [allowsEach, allowsEach, allows_congr_of_references c (fun name hn => h name (List.mem_append_left _ hn)),
      allowsEach_congr_of_references cs (fun name hn => h name (List.mem_append_right _ hn))]

end

theorem references_splitOptional (c : Constraint) : c.splitOptional.1.references = c.references := by
  cases c <;> rfl

theorem allows_splitOptional (c : Constraint) (v : Json) : c.splitOptional.1.allows f v = c.allows f v := by
  cases c <;> rfl

theorem references_oneOf {cs : List Constraint} {name : String} (h : name ∈ (oneOf cs).references) :
    ∃ c ∈ cs, name ∈ c.references := by
  have hb : ∃ b ∈ (cs.flatMap branches).eraseDups, name ∈ b.references := by
    rcases oneOf_cases cs with ⟨c, he, ho⟩ | ⟨-, ho⟩
    · rw [ho] at h
      exact ⟨c, he ▸ List.mem_cons_self, h⟩
    · rw [ho, references] at h
      exact mem_referencesAll_iff.1 h
  obtain ⟨b, hb, hn⟩ := hb
  obtain ⟨c, hc, hb⟩ := List.mem_flatMap.1 (mem_of_mem_eraseDups hb)
  refine ⟨c, hc, ?_⟩
  cases c with
  | union ds => exact mem_referencesAll_iff.2 ⟨b, hb, hn⟩
  | _ => exact List.mem_singleton.1 hb ▸ hn

end Constraint

namespace Tree

mutual

/-- The names that the tree refers to. -/
def references : Tree → List String
  | leaf c => c.references
  | object fields _ => referencesFields fields
  | array t => references t
  | tuple ts => referencesEach ts

def referencesFields : List Field → List String
  | [] => []
  | ⟨_, _, t⟩ :: fields => references t ++ referencesFields fields

def referencesEach : List Tree → List String
  | [] => []
  | t :: ts => references t ++ referencesEach ts

end

theorem heads_subset : ∀ (t : Tree), t.heads ⊆ t.references
  | leaf c => c.heads_subset
  | object _ _ | array _ | tuple _ => List.nil_subset _

variable {f g : String → Json → Bool}

mutual

/-- **What a tree allows depends on the names alone that it refers to.** -/
theorem allows_congr_of_references : ∀ (t : Tree), (∀ name ∈ t.references, f name = g name) → ∀ v,
    t.allows f v = t.allows g v
  | leaf c, h, v => by
    rw [allows, allows]
    exact c.allows_congr_of_references h v
  | object fields policy, h, v => by
    cases v with
    | object entries => rw [allows, allows, allowsFields_congr_of_references fields h]
    | _ => rfl
  | array t, h, v => by
    cases v with
    | array items =>
      have ih := allows_congr_of_references t h
      rw [allows, allows, funext ih]
    | _ => rfl
  | tuple ts, h, v => by
    cases v with
    | array items =>
      rw [allows, allows]
      exact allowsEach_congr_of_references ts h items
    | _ => rfl

theorem allowsFields_congr_of_references : ∀ (fields : List Field),
    (∀ name ∈ referencesFields fields, f name = g name) →
      ∀ entries, allowsFields f fields entries = allowsFields g fields entries
  | [], _, _ => rfl
  | ⟨_, _, t⟩ :: fields, h, entries => by
    rw [referencesFields] at h
    have ht := allows_congr_of_references t fun name hn => h name (List.mem_append_left _ hn)
    rw [allowsFields, allowsFields, funext ht,
      allowsFields_congr_of_references fields fun name hn => h name (List.mem_append_right _ hn)]

theorem allowsEach_congr_of_references : ∀ (ts : List Tree), (∀ name ∈ referencesEach ts, f name = g name) → ∀ vs,
    allowsEach f ts vs = allowsEach g ts vs
  | [], _, vs => by cases vs <;> rfl
  | _ :: _, _, [] => rfl
  | t :: ts, h, v :: vs => by
    rw [referencesEach] at h
    rw [allowsEach, allowsEach, allows_congr_of_references t (fun name hn => h name (List.mem_append_left _ hn)),
      allowsEach_congr_of_references ts (fun name hn => h name (List.mem_append_right _ hn))]

end

theorem references_splitOptional (t : Tree) : t.splitOptional.1.references = t.references := by
  cases t with
  | leaf c => exact c.references_splitOptional
  | _ => rfl

theorem allows_splitOptional (t : Tree) (v : Json) : t.splitOptional.1.allows f v = t.allows f v := by
  cases t with
  | leaf c => exact c.allows_splitOptional v
  | _ => rfl

end Tree

namespace Grammar

variable {isDefined : String → Bool}

mutual

theorem Atom.isDefined_of_mem : ∀ {ls : List Lexeme} {c : Constraint}, Atom isDefined ls c →
    ∀ name ∈ c.references, isDefined name = true
  | _, _, .quoted _, _, h => by cases h
  | _, _, .number _, _, h => by cases h
  | _, _, .yes, _, h => by cases h
  | _, _, .no, _, h => by cases h
  | _, _, .null, _, h => by cases h
  | _, _, .group hu, name, h => hu.isDefined_of_mem name h
  | _, _, .unit, _, h => by cases h
  | _, _, .tuple hi, name, h => by
    obtain ⟨c, hc, hn⟩ := Constraint.mem_referencesAll_iff.1 h
    exact hi.isDefined_of_mem c hc name hn
  | _, _, .anyString, _, h => by cases h
  | _, _, .format _, _, h => by cases h
  | _, _, .anyNumber, _, h => by cases h
  | _, _, .integer, _, h => by cases h
  | _, _, .boolean, _, h => by cases h
  | _, _, .reference n hd _, name, h => List.mem_singleton.1 h ▸ hd

theorem Operand.isDefined_of_mem : ∀ {ls : List Lexeme} {c : Constraint}, Operand isDefined ls c →
    ∀ name ∈ c.references, isDefined name = true
  | _, _, .atom ha, name, h => ha.isDefined_of_mem name h
  | _, _, .array ho, name, h => ho.isDefined_of_mem name h

theorem Term.isDefined_of_mem : ∀ {ls : List Lexeme} {c : Constraint}, Term isDefined ls c →
    ∀ name ∈ c.references, isDefined name = true
  | _, _, .operand ho, name, h => ho.isDefined_of_mem name h
  | _, _, .after _ _ _ _, _, h => by cases h
  | _, _, .before _ _ _ _, _, h => by cases h
  | _, _, .between _ _ _ _ _ _ _ _, _, h => by cases h

theorem Terms.isDefined_of_mem : ∀ {ls : List Lexeme} {cs : List Constraint}, Terms isDefined ls cs →
    ∀ c ∈ cs, ∀ name ∈ c.references, isDefined name = true
  | _, _, .one h => List.forall_mem_singleton.2 h.isDefined_of_mem
  | _, _, .more h hs => List.forall_mem_cons.2 ⟨h.isDefined_of_mem, hs.isDefined_of_mem⟩

/-- **A union of lexemes refers to defined names alone.** -/
theorem Union.isDefined_of_mem : ∀ {ls : List Lexeme} {c : Constraint}, Union isDefined ls c →
    ∀ name ∈ c.references, isDefined name = true
  | _, _, .terms h, name, hn => by
    obtain ⟨c, hc, hn⟩ := Constraint.references_oneOf hn
    exact h.isDefined_of_mem c hc name hn

theorem Items.isDefined_of_mem : ∀ {ls : List Lexeme} {cs : List Constraint}, Items isDefined ls cs →
    ∀ c ∈ cs, ∀ name ∈ c.references, isDefined name = true
  | _, _, .one h => List.forall_mem_singleton.2 h.isDefined_of_mem
  | _, _, .more h hs => List.forall_mem_cons.2 ⟨h.isDefined_of_mem, hs.isDefined_of_mem⟩

end

theorem Expression.isDefined_of_mem : ∀ {ls : List Lexeme} {c : Constraint}, Expression isDefined ls c →
    ∀ name ∈ c.references, isDefined name = true
  | _, _, .required hu, name, h => hu.isDefined_of_mem name h
  | _, _, .optional hu, name, h => hu.isDefined_of_mem name h

end Grammar

/-- An expression refers to defined names alone. -/
theorem Constraint.isDefined_of_parse {isDefined : String → Bool} {text : String} {c : Constraint}
    (h : parse isDefined text = .ok c) : ∀ name ∈ c.references, isDefined name = true := by
  unfold parse at h
  obtain ⟨ts, -, ht⟩ := except_bind_eq_ok_iff.1 h
  exact (ofTokens_eq_ok_iff.1 ht).isDefined_of_mem

namespace Description

mutual

/-- The validators inside a description. -/
def embedded : Description → List Validator
  | expression _ => []
  | constraint _ => []
  | object fields _ => embeddedFields fields
  | array item => embedded item
  | tuple items => embeddedEach items
  | compiled v => [v]

def embeddedFields : List FieldDescription → List Validator
  | [] => []
  | ⟨_, d, _⟩ :: fields => embedded d ++ embeddedFields fields

def embeddedEach : List Description → List Validator
  | [] => []
  | d :: items => embedded d ++ embeddedEach items

end

variable {isDefined : String → Bool} {policy : Policy}

mutual

/-- **A description becomes a tree that refers to defined names alone**, if the validators inside it that belong to no
scope refer to none. -/
theorem Compiles.isDefined_of_mem : ∀ {d : Description} {t : Tree}, Compiles isDefined policy d t →
    (∀ v ∈ d.embedded, v.definitions = none → v.root.references = []) → ∀ name ∈ t.references, isDefined name = true
  | _, _, .expression hp, _, name, hn => Constraint.isDefined_of_parse hp name hn
  | _, _, .constraint _ hd, _, name, hn => hd name hn
  | _, _, .object hf, he, name, hn => hf.isDefined_of_mem he name hn
  | _, _, .array ht _, he, name, hn => ht.isDefined_of_mem he name hn
  | _, _, .tuple hts, he, name, hn => hts.isDefined_of_mem he name hn
  | _, _, .compiled hv, he, name, hn => by
    rw [he _ List.mem_cons_self hv] at hn
    cases hn

theorem CompilesFields.isDefined_of_mem : ∀ {declared : List String} {fields : List FieldDescription}
    {trees : List Field}, CompilesFields isDefined policy declared fields trees →
      (∀ v ∈ embeddedFields fields, v.definitions = none → v.root.references = []) →
        ∀ name ∈ Tree.referencesFields trees, isDefined name = true
  | _, _, _, .nil _, _, _, hn => by cases hn
  | _, _, _, .cons ht _ hts, he, name, hn => by
    rw [embeddedFields] at he
    rw [Tree.referencesFields, Tree.references_splitOptional] at hn
    rcases List.mem_append.1 hn with hn | hn
    · exact ht.isDefined_of_mem (fun v hv => he v (List.mem_append_left _ hv)) name hn
    · exact hts.isDefined_of_mem (fun v hv => he v (List.mem_append_right _ hv)) name hn

theorem CompilesEach.isDefined_of_mem : ∀ {items : List Description} {trees : List Tree},
    CompilesEach isDefined policy items trees →
      (∀ v ∈ embeddedEach items, v.definitions = none → v.root.references = []) →
        ∀ name ∈ Tree.referencesEach trees, isDefined name = true
  | _, _, .nil, _, _, hn => by cases hn
  | _, _, .cons ht _ hts, he, name, hn => by
    rw [embeddedEach] at he
    rw [Tree.referencesEach] at hn
    rcases List.mem_append.1 hn with hn | hn
    · exact ht.isDefined_of_mem (fun v hv => he v (List.mem_append_left _ hv)) name hn
    · exact hts.isDefined_of_mem (fun v hv => he v (List.mem_append_right _ hv)) name hn

end

end Description

namespace Validator

/-- **The validators that there are**: those of descriptions and those of compiled scopes, in which every embedded
validator was compiled before. -/
inductive Compiled : Validator → Prop
  | alone {c : Compiler} {d : Description} {v : Validator} :
    c.Reached → (∀ u ∈ d.embedded, Compiled u) → (c.compile d).1 = .ok v → Compiled v
  | ofScope {s : Scope} {options : Options} {compiled : CompiledScope} {name : String} {v : Validator} :
    (∀ e ∈ s.definitions, ∀ u ∈ e.2.embedded, Compiled u) → s.compile options = .ok compiled →
      compiled.validator? name = some v → Compiled v

/-- **A validator that belongs to no scope refers to nothing.** -/
theorem Compiled.references_eq_nil {v : Validator} (h : v.Compiled) (hv : v.definitions = none) :
    v.root.references = [] := by
  induction h with
  | alone hc _ hv' ih =>
    obtain ⟨root, rfl, ht⟩ := hc.compiles hv'
    refine List.eq_nil_iff_forall_not_mem.2 fun name hn => ?_
    have hd := ht.isDefined_of_mem ih name hn
    cases hd
  | ofScope _ _ hl _ =>
    unfold CompiledScope.validator? at hl
    obtain ⟨root, -, rfl⟩ := Option.map_eq_some_iff.1 hl
    cases hv

/-- **The definitions of a compiled scope refer to its names alone.** -/
theorem mem_names_of_mem_references {s : Scope} {options : Options} {compiled : CompiledScope}
    (he : ∀ e ∈ s.definitions, ∀ u ∈ e.2.embedded, u.Compiled) (h : s.compile options = .ok compiled) {name : String}
    {t : Tree} (ht : compiled.definitions.lookup name = some t) {n : String} (hn : n ∈ t.references) :
      n ∈ s.names := by
  obtain ⟨d, hd, hc⟩ := Scope.compiles_of_lookup_compiled h ht
  have hu : ∀ u ∈ d.embedded, u.definitions = none → u.root.references = [] :=
    fun u hu => (he _ (mem_of_lookup hd) u hu).references_eq_nil
  exact List.contains_iff_mem.1 (hc.isDefined_of_mem hu n hn)

/-- **What compilation gives a tree from the validators inside its description**, all trees of a validator have: its
root and the definitions of its scope. -/
theorem Compiled.trees {P : Tree → Prop} (hP : ∀ {isDefined : String → Bool} {policy : Policy} {d : Description}
    {t : Tree}, d.Compiles isDefined policy t → (∀ u ∈ d.embedded, P u.root) → P t) {v : Validator} (h : v.Compiled) :
      P v.root ∧ ∀ name t, v.scope.lookup name = some t → P t := by
  induction h with
  | alone hc _ hv ih =>
    obtain ⟨root, rfl, ht⟩ := hc.compiles hv
    exact ⟨hP ht fun u hu => (ih u hu).1, fun _ _ hl => nomatch hl⟩
  | @ofScope s _ compiled _ _ _ hs hl ih =>
    have hd : ∀ name t, compiled.definitions.lookup name = some t → P t := fun name t ht => by
      obtain ⟨d, hd, hct⟩ := Scope.compiles_of_lookup_compiled hs ht
      exact hP hct fun u hu => (ih _ (mem_of_lookup hd) u hu).1
    unfold CompiledScope.validator? at hl
    obtain ⟨root, ht, rfl⟩ := Option.map_eq_some_iff.1 hl
    exact ⟨hd _ root ht, hd⟩

end Validator

end Assay
