import Assay.Proofs.Following
import Assay.Proofs.Matching
import Assay.Proofs.Places
import Assay.Proofs.References
import Assay.Proofs.RoundTrip
import Assay.Shape.Of
import Mathlib.Data.List.Perm.Basic
/-!
# Changes of a scope that change no answer

Definitions answer alike on names from which only names with the same trees are reached (`Definitions.AgreeOn`), and a
description keeps its tree when more names are defined (`Description.Compiles.mono`).  So neither the order of the
definitions matters, to whether a scope compiles or to what its validators answer (`Scope.order_irrelevant`), nor does
one definition more matter to those that were there before (`Scope.extension_conservative`).
-/
namespace Assay

namespace Definitions

variable {defs defs' : Definitions} {P : String → Prop}

/-- On the names with `P` the definitions hold the same trees, and these refer to no other names. -/
structure AgreeOn (P : String → Prop) (defs defs' : Definitions) : Prop where
  lookup : ∀ name, P name → defs.lookup name = defs'.lookup name
  closed : ∀ name, P name → ∀ t, defs.lookup name = some t → ∀ n ∈ t.references, P n

namespace AgreeOn

theorem allows_eq (h : AgreeOn P defs defs') : ∀ (budget : Nat) (name : String), P name →
    defs.allows budget name = defs'.allows budget name
  | 0, name, hn => rfl
  | budget + 1, name, hn => by
    funext v
    rw [allows, allows, ← h.lookup name hn]
    cases ht : defs.lookup name with
    | none => rfl
    | some t => exact t.allows_congr_of_references (fun n hr => h.allows_eq budget n (h.closed name hn t ht n hr)) v

theorem violations_eq (h : AgreeOn P defs defs') (limit : Nat) : ∀ (budget : Nat) (name : String), P name →
    defs.violations limit budget name = defs'.violations limit budget name
  | 0, name, hn => by
    funext v
    rw [violations, violations, h.lookup name hn]
  | budget + 1, name, hn => by
    funext v
    rw [violations, violations, ← h.lookup name hn]
    cases ht : defs.lookup name with
    | none => rfl
    | some t =>
      have hr : ∀ n ∈ t.references, P n := h.closed name hn t ht
      exact t.violations_congr_of_references (fun n hn => h.allows_eq budget n (hr n hn))
        (fun n hn => h.violations_eq limit budget n (hr n hn)) v

theorem normalize_eq (h : AgreeOn P defs defs') : ∀ (budget : Nat) (name : String), P name →
    defs.normalize budget name = defs'.normalize budget name
  | 0, name, hn => rfl
  | budget + 1, name, hn => by
    funext v
    rw [normalize, normalize, ← h.lookup name hn]
    cases ht : defs.lookup name with
    | none => rfl
    | some t =>
      exact t.normalize_congr_of_references (fun n hr => h.normalize_eq budget n (h.closed name hn t ht n hr)) v

end AgreeOn

end Definitions

namespace Validator

/-- Two validators decide alike, return the same outcome for every value, and have one shape. -/
structure SameAnswers (v w : Validator) : Prop where
  allows : ∀ x, v.allows x = w.allows x
  validate : ∀ x, v.validate x = w.validate x
  shape : v.shape = w.shape

/-- **One tree answers alike under definitions that agree on the names it refers to.** -/
theorem sameAnswers_of_agreeOn {P : String → Prop} {defs defs' : Definitions} (h : Definitions.AgreeOn P defs defs')
    {root : Tree} (hr : ∀ name ∈ root.references, P name) (limit : Nat) :
      SameAnswers ⟨root, some defs, limit⟩ ⟨root, some defs', limit⟩ := by
  have ha : ∀ name ∈ root.references, defs.allows limit name = defs'.allows limit name :=
    fun name hn => h.allows_eq limit name (hr name hn)
  have hv : ∀ name ∈ root.references, defs.violations limit limit name = defs'.violations limit limit name :=
    fun name hn => h.violations_eq limit limit name (hr name hn)
  have hn : ∀ name ∈ root.references, defs.normalize limit name = defs'.normalize limit name :=
    fun name hn => h.normalize_eq limit name (hr name hn)
  refine ⟨fun x => root.allows_congr_of_references ha x, fun x => ?_, rfl⟩
  unfold validate violations normalize
  simp only [scope, Option.getD_some]
  rw [root.violations_congr_of_references ha hv x, root.normalize_congr_of_references hn x]

end Validator

/-- An expression means what it means also when more names are defined. -/
theorem Constraint.parse_mono {isDefined isDefined' : String → Bool}
    (hd : ∀ name, isDefined name = true → isDefined' name = true) {text : String} {c : Constraint}
    (h : parse isDefined text = .ok c) : parse isDefined' text = .ok c := by
  unfold parse at h ⊢
  obtain ⟨ts, hts, hc⟩ := except_bind_eq_ok_iff.1 h
  exact except_bind_eq_ok_iff.2 ⟨ts, hts, ofTokens_eq_ok_iff.2 ((ofTokens_eq_ok_iff.1 hc).mono hd)⟩

namespace Description

variable {isDefined isDefined' : String → Bool} {policy : Policy}

mutual

/-- **A description becomes the tree that it becomes also when more names are defined.** -/
theorem Compiles.mono (hd : ∀ name, isDefined name = true → isDefined' name = true) :
    ∀ {d : Description} {t : Tree}, Compiles isDefined policy d t → Compiles isDefined' policy d t
  | _, _, .expression hp => .expression (Constraint.parse_mono hd hp)
  | _, _, .constraint hc hr => .constraint hc fun name hn => hd name (hr name hn)
  | _, _, .object hf => .object (hf.mono hd)
  | _, _, .array ht ho => .array (ht.mono hd) ho
  | _, _, .tuple hts => .tuple (hts.mono hd)
  | _, _, .compiled hv => .compiled hv

theorem CompilesFields.mono (hd : ∀ name, isDefined name = true → isDefined' name = true) :
    ∀ {declared : List String} {fields : List FieldDescription} {trees : List Field},
      CompilesFields isDefined policy declared fields trees → CompilesFields isDefined' policy declared fields trees
  | _, _, _, .nil declared => .nil declared
  | _, _, _, .cons ht hn hts => .cons (ht.mono hd) hn (hts.mono hd)

theorem CompilesEach.mono (hd : ∀ name, isDefined name = true → isDefined' name = true) :
    ∀ {items : List Description} {trees : List Tree},
      CompilesEach isDefined policy items trees → CompilesEach isDefined' policy items trees
  | _, _, .nil => .nil
  | _, _, .cons ht ho hts => .cons (ht.mono hd) ho (hts.mono hd)

end

end Description

namespace Scope

variable {s s' : Scope} {options : Options} {compiled compiled' : CompiledScope}

/-- **A name with one description in two scopes has one tree in both**, if the second defines the names of the first. -/
theorem lookup_compile_eq (hs : s.compile options = .ok compiled) (hs' : s'.compile options = .ok compiled')
    (hm : ∀ name ∈ s.names, name ∈ s'.names) {name : String}
    (hd : s.definitions.lookup name = s'.definitions.lookup name) :
      compiled.definitions.lookup name = compiled'.definitions.lookup name := by
  cases hl : s.definitions.lookup name with
  | none => rw [lookup_compile_eq_none hs hl, lookup_compile_eq_none hs' (hd ▸ hl)]
  | some d =>
    obtain ⟨t, ht, hc⟩ := compiles_of_lookup hs hl
    obtain ⟨t', ht', hc'⟩ := compiles_of_lookup hs' (hd ▸ hl)
    have hsub : ∀ n, s.names.contains n = true → s'.names.contains n = true := by
      simpa only [List.contains_iff_mem] using hm
    rw [ht, ht', (hc.mono hsub).unique hc']

/-- The new scope has the definition last, under a name that is neither part of the notation nor taken. -/
theorem define_eq_ok_iff {name : String} {d : Description} : s.define name d = .ok s' ↔
    keywords.contains name = false ∧ name ∉ s.names ∧ s'.definitions = s.definitions ++ [(name, d)] := by
  unfold define
  split
  · rename_i hkeyword
    simp only [hkeyword, Bool.true_eq_false, false_and, reduceCtorEq]
  rename_i hkeyword
  split
  · rename_i htaken
    simp only [List.contains_iff_mem.1 htaken, not_true_eq_false, false_and, and_false, reduceCtorEq]
  · rename_i htaken
    rw [List.contains_iff_mem] at htaken
    refine ⟨fun h => ?_, fun ⟨_, _, hs⟩ => ?_⟩
    · cases h
      exact ⟨Bool.eq_false_iff.2 hkeyword, htaken, rfl⟩
    · obtain ⟨definitions, distinct⟩ := s'
      cases hs
      rfl

theorem names_define {name : String} {d : Description} (h : s.define name d = .ok s') :
    s'.names = s.names ++ [name] := by
  obtain ⟨-, -, hs⟩ := define_eq_ok_iff.1 h
  rw [names, hs]
  exact List.map_append

/-- The others keep their descriptions. -/
theorem lookup_define {name : String} {d : Description} (h : s.define name d = .ok s') {n : String} (hn : n ∈ s.names) :
    s'.definitions.lookup n = s.definitions.lookup n := by
  obtain ⟨-, hd, hs⟩ := define_eq_ok_iff.1 h
  have hne : (n == name) = false := beq_false_of_ne fun he => hd (he ▸ hn)
  rw [hs, List.lookup_append, List.lookup_cons, hne]
  exact Option.or_none

/-- A name that can be defined with one description can be with any other. -/
theorem define_eq_redefine {name : String} {d : Description} (h : s.define name d = .ok s') (d' : Description) :
    s.define name d' = .ok (s'.redefine name d') := by
  obtain ⟨hkeyword, hname, hs⟩ := define_eq_ok_iff.1 h
  have hlast : Assay.redefine name d' [(name, d)] = [(name, d')] := by simp only [Assay.redefine, List.map, if_true]
  refine define_eq_ok_iff.2 ⟨hkeyword, hname, ?_⟩
  calc (s'.redefine name d').definitions
    _ = Assay.redefine name d' (s.definitions ++ [(name, d)]) := congrArg (Assay.redefine name d') hs
    _ = Assay.redefine name d' s.definitions ++ Assay.redefine name d' [(name, d)] := List.map_append
    _ = s.definitions ++ [(name, d')] := by rw [redefine_of_not_mem hname, hlast]

/-- Where the definitions compile in one order they compile in any other. -/
theorem exists_compile_of_perm (hp : s.definitions.Perm s'.definitions) (h : s.compile options = .ok compiled) :
    ∃ compiled', s'.compile options = .ok compiled' := by
  obtain ⟨htrees, hcycle, -⟩ := compile_eq_ok_iff_compilesAll.1 h
  obtain ⟨defs', htrees', hperm⟩ := List.perm_comp_forall₂ hp.symm htrees
  have hnames : s.names.contains = s'.names.contains := funext fun _ => (hp.map _).contains_eq
  have hnodup : (compiled.definitions.map (·.1)).Nodup := by
    have hn : s.names.Nodup := s.distinct
    rwa [← names_compile h] at hn
  have hlookup : ∀ name, compiled.definitions.lookup name = defs'.lookup name :=
    lookup_eq_of_perm hperm.symm hnodup
  have hcycle' : Definitions.unguardedCycle? defs' = none :=
    (Definitions.unguardedCycle?_eq_none_congr hlookup hperm.symm.length_eq).1 hcycle
  rw [hnames] at htrees'
  exact ⟨⟨defs', options.maxDepth⟩, compile_eq_ok_iff_compilesAll.2 ⟨htrees', hcycle', rfl⟩⟩

section Change

variable {isDefined isDefined' : String → Bool} {policy : Policy} {name : String} {d : Description} {t : Tree}

theorem CompilesAll.mono (hd : ∀ name, isDefined name = true → isDefined' name = true)
    {ds : List (String × Description)} {defs : Definitions} (h : CompilesAll isDefined policy ds defs) :
      CompilesAll isDefined' policy ds defs :=
  h.imp fun _ _ hc => ⟨hc.1, hc.2.mono hd⟩

/-- One description changed among the definitions. -/
theorem CompilesAll.redefine {ds : List (String × Description)} {defs : Definitions}
    (h : CompilesAll isDefined policy ds defs) (name : String) (hc : d.Compiles isDefined policy t) :
      CompilesAll isDefined policy (Assay.redefine name d ds) (Assay.redefine name t defs) := by
  refine List.forall₂_map_left_iff.2 (List.forall₂_map_right_iff.2 (h.imp fun e e' he => ⟨he.1, ?_⟩))
  dsimp only
  rw [he.1]
  split
  · exact hc
  · exact he.2

/-- **A definition that follows nothing first compiles wherever another compiles**, under one name among the others. -/
theorem exists_compile_redefine (h : s.compile options = .ok compiled) (name : String)
    (hc : d.Compiles s.names.contains options.policy t) (hheads : t.heads = []) :
      ∃ compiled', (s.redefine name d).compile options = .ok compiled' := by
  obtain ⟨htrees, hcycle, -⟩ := compile_eq_ok_iff_compilesAll.1 h
  obtain ⟨rank, hrank⟩ := Definitions.exists_ranking hcycle
  have hranked : Definitions.Ranking (Assay.redefine name t compiled.definitions) rank := hrank.redefine hheads
  have hcycle' := Definitions.unguardedCycle?_eq_none_iff.2 ⟨rank, hranked⟩
  have htrees' := htrees.redefine name hc
  rw [← names_redefine s name d] at htrees'
  exact ⟨⟨_, options.maxDepth⟩, compile_eq_ok_iff_compilesAll.2 ⟨htrees', hcycle', rfl⟩⟩

/-- **A scope that compiles does so with one definition more**, if this refers to the names that were there. -/
theorem exists_compile_define (he : ∀ e ∈ s.definitions, ∀ u ∈ e.2.embedded, u.Compiled)
    (h : s.compile options = .ok compiled) (hdefine : s.define name d = .ok s')
    (hc : d.Compiles s.names.contains options.policy t) (hr : ∀ n ∈ t.references, n ∈ s.names) :
      ∃ compiled', s'.compile options = .ok compiled' := by
  obtain ⟨htrees, hcycle, -⟩ := compile_eq_ok_iff_compilesAll.1 h
  obtain ⟨rank, hrank⟩ := Definitions.exists_ranking hcycle
  obtain ⟨-, hname, hs⟩ := define_eq_ok_iff.1 hdefine
  have hnames := names_define hdefine
  have hsub : ∀ n, s.names.contains n = true → (s.names ++ [name]).contains n = true := fun n hn =>
    List.contains_iff_mem.2 (List.mem_append_left _ (List.contains_iff_mem.1 hn))
  have hold : ∀ n u, compiled.definitions.lookup n = some u → name ∉ u.heads := fun n u hu hh =>
    hname (Validator.mem_names_of_mem_references he h hu (u.heads_subset hh))
  have hnew : name ∉ t.heads := fun hh => hname (hr name (t.heads_subset hh))
  have hfresh : name ∉ compiled.names := by rwa [names_compile h]
  have hranked := hrank.append hfresh hold hnew
  refine ⟨⟨compiled.definitions ++ [(name, t)], options.maxDepth⟩, compile_eq_ok_iff_compilesAll.2 ⟨?_, ?_, rfl⟩⟩
  · rw [hnames, hs]
    exact List.rel_append (htrees.mono hsub) (.cons ⟨rfl, hc.mono hsub⟩ .nil)
  · exact Definitions.unguardedCycle?_eq_none_iff.2 ⟨_, hranked⟩

end Change

/-- Scopes with the same trees under every name have validators that answer alike. -/
theorem rel_validator?_of_lookup_eq (hl : ∀ name, compiled.definitions.lookup name = compiled'.definitions.lookup name)
    (hm : compiled.maxDepth = compiled'.maxDepth) (name : String) :
      Option.Rel Validator.SameAnswers (compiled.validator? name) (compiled'.validator? name) := by
  have ha : Definitions.AgreeOn (fun _ => True) compiled.definitions compiled'.definitions :=
    ⟨fun name _ => hl name, fun _ _ _ _ _ _ => trivial⟩
  unfold CompiledScope.validator?
  rw [← hl name, ← hm]
  cases compiled.definitions.lookup name with
  | none => exact .none
  | some root => exact .some (Validator.sameAnswers_of_agreeOn ha (fun _ _ => trivial) compiled.maxDepth)

/-- **The order of the definitions does not matter.**  A scope compiles in one order exactly when it compiles in
another, and then every name has validators that answer alike, or none in both. -/
theorem order_irrelevant (hp : s.definitions.Perm s'.definitions) (options : Options) :
    ((∃ compiled, s.compile options = .ok compiled) ↔ ∃ compiled', s'.compile options = .ok compiled') ∧
      ∀ compiled compiled', s.compile options = .ok compiled → s'.compile options = .ok compiled' → ∀ name,
        Option.Rel Validator.SameAnswers (compiled.validator? name) (compiled'.validator? name) ∧
          ∀ x, compiled.validate name x = compiled'.validate name x := by
  refine ⟨⟨fun ⟨_, h⟩ => exists_compile_of_perm hp h, fun ⟨_, h⟩ => exists_compile_of_perm hp.symm h⟩, ?_⟩
  intro compiled compiled' h h' name
  have hm : compiled.maxDepth = compiled'.maxDepth :=
    (maxDepth_compile h).trans (maxDepth_compile h').symm
  have hl : ∀ name, compiled.definitions.lookup name = compiled'.definitions.lookup name := fun name =>
    lookup_compile_eq h h' (fun _ => (hp.map _).mem_iff.1) (lookup_eq_of_perm hp s.distinct name)
  have hr := rel_validator?_of_lookup_eq hl hm name
  refine ⟨hr, fun x => ?_⟩
  unfold CompiledScope.validate
  generalize compiled.validator? name = v at hr ⊢
  generalize compiled'.validator? name = w at hr ⊢
  cases hr with
  | none => rfl
  | some ha => exact congrArg Except.ok (ha.validate x)

/-- Files by name, and folders of entries that are one or the other. -/
def folders : Scope where
  definitions := [("Entry", .constraint (.union [.kind .string, .reference "Folder"])),
    ("Folder", .array (.constraint (.reference "Entry")))]

/-- Folders first. -/
def foldersFirst : Scope where
  definitions := folders.definitions.reverse

/-- Entry before folder or after it, a folder in a folder is decided and reported alike. -/
theorem order_irrelevant_folders : folders.definitions.Perm foldersFirst.definitions ∧
    ∃ compiled compiled' v w, folders.compile {} = .ok compiled ∧ foldersFirst.compile {} = .ok compiled' ∧
      compiled.validator? "Folder" = some v ∧ compiled'.validator? "Folder" = some w ∧ v.SameAnswers w ∧
        v.allows (.array [.string "a", .array []]) = true := by
  have hp : folders.definitions.Perm foldersFirst.definitions := (List.reverse_perm folders.definitions).symm
  have h := (order_irrelevant hp {}).2 _ _ rfl rfl "Folder"
  refine ⟨hp, _, _, _, _, rfl, rfl, rfl, rfl, ?_, by decide⟩
  cases h.1 with
  | some ha => exact ha

/-- **One definition more changes no answer of the others.**  Every definition of a scope has validators that answer
alike in the scope and in the scope with a definition more, and no expression is read differently because more names
are defined. -/
theorem extension_conservative :
    (∀ (options : Options) (s s' : Scope) (name : String) (d : Description) (compiled compiled' : CompiledScope),
      (∀ e ∈ s.definitions, ∀ u ∈ e.2.embedded, u.Compiled) → s.define name d = .ok s' →
        s.compile options = .ok compiled → s'.compile options = .ok compiled' → ∀ n ∈ s.names, ∃ v w,
          compiled.validator? n = some v ∧ compiled'.validator? n = some w ∧ v.SameAnswers w) ∧
      ∀ (e : String) (p q : String → Bool) (c : Constraint), (∀ name, p name = true → q name = true) →
        Constraint.parse p e = .ok c → Constraint.parse q e = .ok c := by
  refine ⟨fun options s s' name d compiled compiled' he hs h h' n hn => ?_, fun _ _ _ _ hd => Constraint.parse_mono hd⟩
  have hsub : ∀ n ∈ s.names, n ∈ s'.names := fun n hn => names_define hs ▸ List.mem_append_left _ hn
  have ha : Definitions.AgreeOn (· ∈ s.names) compiled.definitions compiled'.definitions :=
    ⟨fun n hn => lookup_compile_eq h h' hsub (lookup_define hs hn).symm,
      fun _ _ _ ht _ hm => Validator.mem_names_of_mem_references he h ht hm⟩
  have hm : compiled'.maxDepth = compiled.maxDepth :=
    (maxDepth_compile h').trans (maxDepth_compile h).symm
  obtain ⟨root, hr⟩ : ∃ root, compiled.definitions.lookup n = some root := by
    rw [← names_compile h] at hn
    exact Definitions.mem_names_iff.1 hn
  have hr' : compiled'.definitions.lookup n = some root := ha.lookup n hn ▸ hr
  refine ⟨⟨root, some compiled.definitions, compiled.maxDepth⟩, ⟨root, some compiled'.definitions, compiled'.maxDepth⟩,
    by rw [CompiledScope.validator?, hr]; rfl, by rw [CompiledScope.validator?, hr']; rfl, ?_⟩
  rw [hm]
  exact Validator.sameAnswers_of_agreeOn ha (fun _ hm => Validator.mem_names_of_mem_references he h hr hm) _

/-- Keys, and identifiers that are hexadecimal or keys. -/
def identifiers : Scope where
  definitions := [("key", .constraint (.kind .string)), ("id", .array (.expression "string.uuid | key"))]

/-- With one definition more, of a name that stands in the expression after a dot. -/
def moreIdentifiers : Scope where
  definitions := identifiers.definitions ++ [("uuid", .constraint (.kind .integer))]

def uuidOrKey : Constraint := .union [.format .uuid, .reference "key"]

theorem parse_uuidOrKey : Constraint.parse identifiers.names.contains "string.uuid | key" = .ok uuidOrKey := by
  have hs := (Constraint.spells_format .uuid).bar (Spells.name (n := "key") (by decide))
  rw [show "string." ++ Format.suffix .uuid ++ " | " ++ "key" = "string.uuid | key" by decide] at hs
  have hk : Grammar.Term identifiers.names.contains [.identifier "key"] (.reference "key") :=
    .operand (.atom (.reference "key" (by decide) (by decide)))
  exact Constraint.parse_of_spells hs (.required (.terms (.more (.operand (.atom (.format .uuid))) (.one hk))))

theorem identifiers_compile : identifiers.compile {} =
    .ok ⟨[("key", .leaf (.kind .string)), ("id", .array (.leaf uuidOrKey))], 100⟩ := by
  refine compile_eq_ok_iff_compilesAll.2 ⟨.cons ⟨rfl, .constraint rfl nofun⟩ (.cons ⟨rfl, ?_⟩ .nil), rfl, rfl⟩
  exact .array (.expression parse_uuidOrKey) rfl

/-- The format is not read as the new name, and identifiers are decided and reported as before. -/
theorem extension_conservative_identifiers :
    identifiers.define "uuid" (.constraint (.kind .integer)) = .ok moreIdentifiers ∧
      Constraint.parse moreIdentifiers.names.contains "string.uuid | key" = .ok uuidOrKey ∧
        ∃ compiled compiled' v w, identifiers.compile {} = .ok compiled ∧ moreIdentifiers.compile {} = .ok compiled' ∧
          compiled.validator? "id" = some v ∧ compiled'.validator? "id" = some w ∧ v.SameAnswers w := by
  have hdefine : identifiers.define "uuid" (.constraint (.kind .integer)) = .ok moreIdentifiers := rfl
  have hsub : ∀ name, identifiers.names.contains name = true → moreIdentifiers.names.contains name = true := by
    intro name hn
    rw [names_define hdefine]
    exact List.contains_iff_mem.2 (List.mem_append_left _ (List.contains_iff_mem.1 hn))
  have hparse := extension_conservative.2 _ _ _ _ hsub parse_uuidOrKey
  have hmore : moreIdentifiers.compile {} =
      .ok ⟨[("key", .leaf (.kind .string)), ("id", .array (.leaf uuidOrKey)), ("uuid", .leaf (.kind .integer))], 100⟩ :=
    compile_eq_ok_iff_compilesAll.2 ⟨.cons ⟨rfl, .constraint rfl nofun⟩
      (.cons ⟨rfl, .array (.expression hparse) rfl⟩ (.cons ⟨rfl, .constraint rfl nofun⟩ .nil)), rfl, rfl⟩
  have he : ∀ e ∈ identifiers.definitions, ∀ u ∈ e.2.embedded, u.Compiled := by
    simp [identifiers, Description.embedded]
  obtain ⟨v, w, hv, hw, h⟩ :=
    extension_conservative.1 {} _ _ _ _ _ _ he hdefine identifiers_compile hmore "id" (by decide)
  exact ⟨hdefine, hparse, _, _, v, w, identifiers_compile, hmore, hv, hw, h⟩

end Scope

end Assay
