import Assay.Proofs.Acyclic
import Assay.Proofs.Compilation
/-!
# Compilations side by side

Two steps of compilation match when they fail with one error or return related values, and leave related caches
(`Lowering.Matches`).  A relation of trees that every construct of descriptions respects (`Tree.Congruence`) carries
over from the parts of two descriptions to the whole: to a description under two policies
(`Description.lowersAlike_self`), to whatever is put in the hole of a context (`Description.Context.lowersAlike_fill`),
and from the definitions of scopes to their compilation (`Scope.sameResult_compile`).
-/
namespace Assay

/-- **The same error, or two values in the relation.** -/
inductive SameResult {α β : Type} (S : α → β → Prop) : Except SchemaError α → Except SchemaError β → Prop
  | error (e : SchemaError) : SameResult S (.error e) (.error e)
  | ok {a : α} {b : β} : S a b → SameResult S (.ok a) (.ok b)

namespace SameResult

variable {α β γ δ : Type} {S : α → β → Prop} {T : γ → δ → Prop} {x : Except SchemaError α} {y : Except SchemaError β}

theorem imp {S' : α → β → Prop} (h : SameResult S x y) (hS : ∀ a b, S a b → S' a b) : SameResult S' x y := by
  cases h with
  | error e => exact .error e
  | ok hab => exact .ok (hS _ _ hab)

theorem imp_of_ok {S' : α → β → Prop} (h : SameResult S x y) (hS : ∀ a b, x = .ok a → S a b → S' a b) :
    SameResult S' x y := by
  cases h with
  | error e => exact .error e
  | ok hab => exact .ok (hS _ _ rfl hab)

theorem map {f : α → γ} {g : β → δ} (h : SameResult S x y) (hf : ∀ a b, S a b → T (f a) (g b)) :
    SameResult T (x.map f) (y.map g) := by
  cases h with
  | error e => exact .error e
  | ok hab => exact .ok (hf _ _ hab)

theorem bind {f : α → Except SchemaError γ} {g : β → Except SchemaError δ} (h : SameResult S x y)
    (hf : ∀ a b, S a b → SameResult T (f a) (g b)) : SameResult T (x >>= f) (y >>= g) := by
  cases h with
  | error e => exact .error e
  | ok hab => exact hf _ _ hab

theorem refl {S : α → α → Prop} (hS : ∀ a, S a a) : ∀ (x : Except SchemaError α), SameResult S x x
  | .error e => .error e
  | .ok a => .ok (hS a)

theorem eq {x y : Except SchemaError α} (h : SameResult Eq x y) : x = y := by
  cases h with
  | error e => rfl
  | ok hab => rw [hab]

theorem exists_of_ok {a : α} (h : SameResult S (.ok a) y) : ∃ b, y = .ok b ∧ S a b := by
  cases h with
  | ok hab => exact ⟨_, rfl, hab⟩

end SameResult

namespace Lowering

variable {α β γ δ : Type} {R : Cache → Cache → Prop} {S : α → β → Prop} {T : γ → δ → Prop}

/-- The step neither looks at the cache nor changes it. -/
def Idle (step : Lowering α) : Prop := ∃ result, ∀ before, step.runFrom before = (result, before)

theorem idle_pure (a : α) : Idle (pure a) := ⟨.ok a, fun _ => rfl⟩

theorem idle_throw (e : SchemaError) : Idle (throw e : Lowering α) := ⟨.error e, fun _ => rfl⟩

theorem Idle.bind {step : Lowering α} {next : α → Lowering γ} (h : step.Idle) (hn : ∀ a, (next a).Idle) :
    (step >>= next).Idle := by
  obtain ⟨result, hr⟩ := h
  cases result with
  | error e => exact ⟨.error e, fun before => by rw [runFrom_bind, hr]⟩
  | ok a =>
    obtain ⟨result, ha⟩ := hn a
    exact ⟨result, fun before => by rw [runFrom_bind, hr]; exact ha before⟩

/-- **From related caches the steps fail alike or return related values**, and they leave related caches. -/
def Matches (R : Cache → Cache → Prop) (S : α → β → Prop) (step : Lowering α) (step' : Lowering β) : Prop :=
  ∀ before before', R before before' → SameResult S (step.runFrom before).1 (step'.runFrom before').1 ∧
    R (step.runFrom before).2 (step'.runFrom before').2

theorem matches_pure {a : α} {b : β} (h : S a b) : Matches R S (pure a) (pure b) := fun _ _ hb => ⟨.ok h, hb⟩

theorem matches_throw (e : SchemaError) : Matches R S (throw e) (throw e) := fun _ _ hb => ⟨.error e, hb⟩

theorem Matches.imp {S' : α → β → Prop} {step : Lowering α} {step' : Lowering β} (h : Matches R S step step')
    (hS : ∀ a b, S a b → S' a b) : Matches R S' step step' := fun before before' hb =>
  ⟨(h before before' hb).1.imp hS, (h before before' hb).2⟩

theorem Matches.bind {step : Lowering α} {step' : Lowering β} {next : α → Lowering γ} {next' : β → Lowering δ}
    (h : Matches R S step step') (hn : ∀ a b, S a b → Matches R T (next a) (next' b)) :
      Matches R T (step >>= next) (step' >>= next') := by
  intro before before' hb
  obtain ⟨hs, hr⟩ := h before before' hb
  rw [runFrom_bind, runFrom_bind]
  generalize step.runFrom before = out at hs hr ⊢
  generalize step'.runFrom before' = out' at hs hr ⊢
  obtain ⟨result, between⟩ := out
  obtain ⟨result', between'⟩ := out'
  cases hs with
  | error e => exact ⟨.error e, hr⟩
  | ok hab => exact hn _ _ hab between between' hr

theorem Idle.matches {step : Lowering α} (h : step.Idle) : Matches R Eq step step := by
  obtain ⟨result, hr⟩ := h
  intro before before' hb
  rw [hr, hr]
  exact ⟨.refl (fun _ => rfl) result, hb⟩

/-- Both caches are sound. -/
def BothSound (cache cache' : Cache) : Prop := cache.Sound ∧ cache'.Sound

/-- Steps that return related values match. -/
theorem Returns.matches {step : Lowering α} {step' : Lowering β} {a : α} {b : β} (h : step.Returns a)
    (h' : step'.Returns b) (hab : S a b) : Matches BothSound S step step' := by
  intro before before' hb
  obtain ⟨after, hs, hr⟩ := h before hb.1
  obtain ⟨after', hs', hr'⟩ := h' before' hb.2
  rw [hr, hr']
  exact ⟨.ok hab, hs, hs'⟩

end Lowering

open Lowering (Idle Matches BothSound idle_pure idle_throw matches_pure matches_throw)

theorem idle_readScoped (isDefined : String → Bool) (path : Path) (text : String) :
    (readScoped isDefined path text).Idle := by
  unfold readScoped
  cases Constraint.parse isDefined text with
  | error e => exact idle_throw _
  | ok c => exact idle_pure c

theorem idle_checkConstraint (isDefined : String → Bool) (path : Path) (c : Constraint) :
    (checkConstraint isDefined path c).Idle := by
  unfold checkConstraint
  cases c.check with
  | error e => exact ⟨.error _, fun _ => rfl⟩
  | ok _ =>
    dsimp only
    cases c.references.find? (!isDefined ·) with
    | some name => exact idle_throw _
    | none => exact idle_pure ()

theorem idle_checkElement (path : Path) (t : Tree) : (checkElement path t).Idle := by
  unfold checkElement
  cases t.isOptional with
  | true => exact idle_throw _
  | false => exact idle_pure t

/-- From sound caches an expression is read as what it means, where the names that `isDefined` accepts are references,
and refused alike if it means nothing. -/
structure Reading.Sound (isDefined : String → Bool) (read : Reading) : Prop where
  returns : ∀ path text c, Constraint.parse isDefined text = .ok c → (read path text).Returns c
  alike : ∀ path text, Matches BothSound Eq (read path text) (read path text)

theorem sound_readScoped (isDefined : String → Bool) : Reading.Sound isDefined (readScoped isDefined) where
  returns path _ _ hp := returns_readScoped hp path
  alike path text := (idle_readScoped isDefined path text).matches

theorem sound_readCached : Reading.Sound (fun _ => false) readCached where
  returns path _ _ hp := returns_readCached hp path
  alike path text := by
    cases hp : Constraint.parse (fun _ => false) text with
    | ok c => exact (returns_readCached hp path).matches (returns_readCached hp path) rfl
    | error e =>
      intro before before' hb
      have hfresh : ∀ cache : Cache, cache.Sound → cache.lookup text = none := fun cache hs =>
        Option.eq_none_iff_forall_ne_some.2 fun c hc => by
          rw [hs text c hc] at hp
          cases hp
      rw [runFrom_readCached, runFrom_readCached, hfresh before hb.1, hfresh before' hb.2, hp]
      exact ⟨.error _, hb⟩

/-- Fields of one name, both optional or both required, with related trees. -/
structure Field.Rel (S : Tree → Tree → Prop) (f f' : Field) : Prop where
  name : f.name = f'.name
  optional : f.optional = f'.optional
  node : S f.node f'.node

/-- **The constructs of descriptions respect a relation of trees**, where objects without a policy of their own have
`policy` on one side and `policy'` on the other. -/
structure Tree.Congruence (policy policy' : Policy) (S : Tree → Tree → Prop) : Prop where
  refl (t : Tree) : S t t
  isOptional {t t' : Tree} : S t t' → t.isOptional = t'.isOptional
  unmarked {t t' : Tree} : S t t' → S t.splitOptional.1 t'.splitOptional.1
  object {fields fields' : List Field} (own : Option Policy) :
    List.Forall₂ (Field.Rel S) fields fields' →
      S (.object fields (own.getD policy)) (.object fields' (own.getD policy'))
  array {t t' : Tree} : S t t' → S (.array t) (.array t')
  tuple {ts ts' : List Tree} : List.Forall₂ S ts ts' → S (.tuple ts) (.tuple ts')

theorem Field.eq_of_rel {f f' : Field} (h : Field.Rel Eq f f') : f = f' := by
  obtain ⟨name, optional, node⟩ := f
  obtain ⟨name', optional', node'⟩ := f'
  obtain ⟨rfl, rfl, rfl⟩ := h
  rfl

theorem Tree.congruence_eq (policy : Policy) : Congruence policy policy Eq where
  refl _ := rfl
  isOptional h := by rw [h]
  unmarked h := by rw [h]
  object own h := by
    have he := h.imp fun _ _ => Field.eq_of_rel
    rw [List.forall₂_eq_eq_eq] at he
    rw [he]
  array h := by rw [h]
  tuple h := by
    rw [List.forall₂_eq_eq_eq] at h
    rw [h]

theorem matches_checkElement {policy policy' : Policy} {R : Cache → Cache → Prop} {S : Tree → Tree → Prop}
    (hS : Tree.Congruence policy policy' S) (path : Path) {t t' : Tree} (h : S t t') :
      Matches R S (checkElement path t) (checkElement path t') := by
  unfold checkElement
  rw [hS.isOptional h]
  cases t'.isOptional with
  | true => exact matches_throw _
  | false => exact matches_pure h

namespace Description

/-- **At every path the two descriptions lower alike**, each with its own way to read and its own policy. -/
def LowersAlike (R : Cache → Cache → Prop) (S : Tree → Tree → Prop) (read read' : Reading) (isDefined : String → Bool)
    (policy policy' : Policy) (d d' : Description) : Prop :=
  ∀ path, Matches R S (d.lower read isDefined policy path) (d'.lower read' isDefined policy' path)

/-- Declarations of one field, by descriptions in the relation. -/
structure FieldRel (A : Description → Description → Prop) (f f' : FieldDescription) : Prop where
  name : f.name = f'.name
  optional : f.optional = f'.optional
  description : A f.description f'.description

section Lower

variable {R : Cache → Cache → Prop} {S : Tree → Tree → Prop} {read read' : Reading} {isDefined : String → Bool}
  {policy policy' : Policy}

theorem matches_lowerFields (hS : Tree.Congruence policy policy' S) (path : Path) :
    ∀ {fields fields' : List FieldDescription} (declared : List String),
      List.Forall₂ (FieldRel (LowersAlike R S read read' isDefined policy policy')) fields fields' →
        Matches R (List.Forall₂ (Field.Rel S)) (lowerFields read isDefined policy path declared fields)
          (lowerFields read' isDefined policy' path declared fields')
  | _, _, declared, .nil => by
    rw [lowerFields, lowerFields]
    exact matches_pure .nil
  | ⟨name, d, optional⟩ :: rest, ⟨_, d', _⟩ :: rest', declared, .cons ⟨rfl, rfl, hd⟩ h => by
    rw [lowerFields, lowerFields]
    refine (hd (path.push (.key name))).bind fun t t' ht => ?_
    dsimp only
    split
    · exact matches_throw _
    · refine (matches_lowerFields hS path (declared ++ [name]) h).bind fun fs fs' hfs => matches_pure ?_
      refine .cons ⟨rfl, ?_, hS.unmarked ht⟩ hfs
      dsimp only
      rw [Tree.splitOptional_snd, Tree.splitOptional_snd, hS.isOptional ht]

theorem matches_lowerItems (hS : Tree.Congruence policy policy' S) (path : Path) :
    ∀ {items items' : List Description} (i : Nat),
      List.Forall₂ (LowersAlike R S read read' isDefined policy policy') items items' →
        Matches R (List.Forall₂ S) (lowerItems read isDefined policy path i items)
          (lowerItems read' isDefined policy' path i items')
  | _, _, i, .nil => by
    rw [lowerItems, lowerItems]
    exact matches_pure .nil
  | d :: rest, d' :: rest', i, .cons hd h => by
    rw [lowerItems, lowerItems]
    refine (hd (path.push (.index i))).bind fun t t' ht => ?_
    refine (matches_checkElement hS _ ht).bind fun u u' hu => ?_
    exact (matches_lowerItems hS path (i + 1) h).bind fun ts ts' hts => matches_pure (.cons hu hts)

/-- Descriptions that become related trees. -/
theorem lowersAlike_of_compiles (hr : Reading.Sound isDefined read) {d d' : Description} {t t' : Tree}
    (h : Compiles isDefined policy d t) (h' : Compiles isDefined policy' d' t') (ht : S t t') :
      LowersAlike BothSound S read read isDefined policy policy' d d' :=
  fun path => (returns_lower hr.returns h path).matches (returns_lower hr.returns h' path) ht

namespace LowersAlike

/-- Objects lower alike when their fields do. -/
theorem object (hS : Tree.Congruence policy policy' S) {fields fields' : List FieldDescription} (own : Option Policy)
    (h : List.Forall₂ (FieldRel (LowersAlike R S read read' isDefined policy policy')) fields fields') :
      LowersAlike R S read read' isDefined policy policy' (object fields own) (object fields' own) := by
  intro path
  rw [lower, lower]
  exact (matches_lowerFields hS path [] h).bind fun fs fs' hfs => matches_pure (hS.object own hfs)

theorem array (hS : Tree.Congruence policy policy' S) {item item' : Description}
    (h : LowersAlike R S read read' isDefined policy policy' item item') :
      LowersAlike R S read read' isDefined policy policy' (array item) (array item') := by
  intro path
  rw [lower, lower]
  refine (h path).bind fun t t' ht => (matches_checkElement hS path ht).bind fun u u' hu => ?_
  exact matches_pure (hS.array hu)

theorem tuple (hS : Tree.Congruence policy policy' S) {items items' : List Description}
    (h : List.Forall₂ (LowersAlike R S read read' isDefined policy policy') items items') :
      LowersAlike R S read read' isDefined policy policy' (tuple items) (tuple items') := by
  intro path
  rw [lower, lower]
  exact (matches_lowerItems hS path 0 h).bind fun ts ts' hts => matches_pure (hS.tuple hts)

end LowersAlike

mutual

/-- **A description lowers alike under both policies**, when expressions are read alike. -/
theorem lowersAlike_self (hS : Tree.Congruence policy policy' S)
    (hr : ∀ path text, Matches R Eq (read path text) (read' path text)) : ∀ (d : Description),
      LowersAlike R S read read' isDefined policy policy' d d
  | expression text => fun path => by
    rw [lower, lower]
    refine (hr path text).bind fun c c' hc => matches_pure ?_
    rw [hc]
    exact hS.refl _
  | constraint c => fun path => by
    rw [lower, lower]
    exact (idle_checkConstraint isDefined path c).matches.bind fun _ _ _ => matches_pure (hS.refl _)
  | object fields own => .object hS own (fieldsLowerAlike_self hS hr fields)
  | array item => .array hS (lowersAlike_self hS hr item)
  | tuple items => .tuple hS (itemsLowerAlike_self hS hr items)
  | compiled v => fun path => by
    rw [lower, lower]
    cases v.definitions with
    | some _ => exact matches_throw _
    | none => exact matches_pure (hS.refl _)

theorem fieldsLowerAlike_self (hS : Tree.Congruence policy policy' S)
    (hr : ∀ path text, Matches R Eq (read path text) (read' path text)) : ∀ (fields : List FieldDescription),
      List.Forall₂ (FieldRel (LowersAlike R S read read' isDefined policy policy')) fields fields
  | [] => .nil
  | ⟨_, d, _⟩ :: fields => .cons ⟨rfl, rfl, lowersAlike_self hS hr d⟩ (fieldsLowerAlike_self hS hr fields)

theorem itemsLowerAlike_self (hS : Tree.Congruence policy policy' S)
    (hr : ∀ path text, Matches R Eq (read path text) (read' path text)) : ∀ (items : List Description),
      List.Forall₂ (LowersAlike R S read read' isDefined policy policy') items items
  | [] => .nil
  | d :: items => .cons (lowersAlike_self hS hr d) (itemsLowerAlike_self hS hr items)

end

end Lower

/-- **A description with a hole**: inside fields of objects, items of arrays and places of tuples, among others. -/
inductive Context
  | hole
  | field (before : List FieldDescription) (name : String) (inner : Context) (optional : Bool)
    (after : List FieldDescription) (policy : Option Policy)
  | item (inner : Context)
  | place (before : List Description) (inner : Context) (after : List Description)

namespace Context

/-- The description with `d` in the hole. -/
def fill : Context → Description → Description
  | hole, d => d
  | field before name inner optional after policy, d =>
    .object (before ++ ⟨name, inner.fill d, optional⟩ :: after) policy
  | item inner, d => .array (inner.fill d)
  | place before inner after, d => .tuple (before ++ inner.fill d :: after)

variable {R : Cache → Cache → Prop} {S : Tree → Tree → Prop} {read read' : Reading} {isDefined : String → Bool}
  {policy policy' : Policy} {d d' : Description}

/-- **What lowers alike lowers alike in every context.** -/
theorem lowersAlike_fill (hS : Tree.Congruence policy policy' S)
    (hr : ∀ path text, Matches R Eq (read path text) (read' path text))
    (hd : LowersAlike R S read read' isDefined policy policy' d d') : ∀ (context : Context),
      LowersAlike R S read read' isDefined policy policy' (context.fill d) (context.fill d')
  | hole => hd
  | field before name inner optional after own => by
    have hinner := lowersAlike_fill hS hr hd inner
    refine .object hS own (List.rel_append (fieldsLowerAlike_self hS hr before) (.cons ⟨rfl, rfl, hinner⟩ ?_))
    exact fieldsLowerAlike_self hS hr after
  | item inner => .array hS (lowersAlike_fill hS hr hd inner)
  | place before inner after => by
    have hinner := lowersAlike_fill hS hr hd inner
    refine .tuple hS (List.rel_append (itemsLowerAlike_self hS hr before) (.cons hinner ?_))
    exact itemsLowerAlike_self hS hr after

end Context

end Description

open Description (LowersAlike)

/-- **Descriptions that lower alike compile alike**, whatever the two compilers have compiled before. -/
theorem Compiler.sameResult_compile {S : Tree → Tree → Prop} {c c' : Compiler} (hc : c.Reached) (hc' : c'.Reached)
    {d d' : Description} (h : LowersAlike BothSound S readCached readCached (fun _ => false) c.options.policy
      c'.options.policy d d') :
      SameResult (fun v w => ∃ t t', S t t' ∧ v = ⟨t, none, c.options.maxDepth⟩ ∧ w = ⟨t', none, c'.options.maxDepth⟩)
        (c.compile d).1 (c'.compile d').1 := by
  rw [compile_eq, compile_eq]
  exact (h [] c.cache c'.cache ⟨hc.sound, hc'.sound⟩).1.map fun t t' ht => ⟨t, t', ht, rfl, rfl⟩

namespace Definitions

variable {defs defs' : Definitions}

theorem visit_congr (hh : defs.headsOf = defs'.headsOf) : ∀ (depth : Nat), defs.visit depth = defs'.visit depth
  | 0 => by
    funext stack finished name
    unfold visit
    rfl
  | depth + 1 => by
    funext stack finished name
    unfold visit
    dsimp only
    rw [hh, visit_congr hh depth]

/-- **The cycle that is found depends on the names and on their heads alone.** -/
theorem unguardedCycle?_congr (hh : defs.headsOf = defs'.headsOf) (hn : defs.map (·.1) = defs'.map (·.1)) :
    defs.unguardedCycle? = defs'.unguardedCycle? := by
  have hl : defs.length = defs'.length := by
    rw [← List.length_map (f := fun d : String × Tree => d.1), hn, List.length_map]
  unfold unguardedCycle?
  rw [hn, hl, visit_congr hh]

/-- Under each name, in one order, there are related trees. -/
def Rel (S : Tree → Tree → Prop) : Definitions → Definitions → Prop :=
  List.Forall₂ fun d d' => d.1 = d'.1 ∧ S d.2 d'.2

namespace Rel

variable {S : Tree → Tree → Prop}

theorem names_eq : ∀ {defs defs' : Definitions}, Rel S defs defs' → defs.map (·.1) = defs'.map (·.1)
  | _, _, .nil => rfl
  | _, _, .cons ⟨hn, _⟩ h => by rw [List.map_cons, List.map_cons, hn, names_eq h]

theorem eq {defs defs' : Definitions} (h : Rel Eq defs defs') : defs = defs' := by
  have he : List.Forall₂ Eq defs defs' := h.imp fun _ _ hd => Prod.ext hd.1 hd.2
  rwa [List.forall₂_eq_eq_eq] at he

theorem lookup (name : String) : ∀ {defs defs' : Definitions}, Rel S defs defs' →
    Option.Rel S (defs.lookup name) (defs'.lookup name)
  | _, _, .nil => .none
  | (n, _) :: _, (n', _) :: _, .cons ⟨hn, ht⟩ h => by
    obtain rfl : n = n' := hn
    rw [List.lookup_cons, List.lookup_cons]
    split
    · exact .some ht
    · exact lookup name h

theorem unguardedCycle?_eq (h : Rel S defs defs') (hheads : ∀ t t', S t t' → t.heads = t'.heads) :
    defs.unguardedCycle? = defs'.unguardedCycle? := by
  refine unguardedCycle?_congr ?_ h.names_eq
  funext name
  have hr := h.lookup name
  unfold headsOf
  generalize defs.lookup name = found at hr ⊢
  generalize defs'.lookup name = found' at hr ⊢
  cases hr with
  | none => rfl
  | some ht => exact hheads _ _ ht

end Rel

end Definitions

namespace Scope

/-- A compiled scope has a validator for each of its names. -/
theorem exists_validator?_of_mem {s : Scope} {options : Options} {compiled : CompiledScope} {name : String}
    (h : s.compile options = .ok compiled) (hn : name ∈ s.names) : ∃ v, compiled.validator? name = some v := by
  rw [← names_compile h] at hn
  obtain ⟨t, ht⟩ := Definitions.mem_names_iff.1 hn
  unfold CompiledScope.validator?
  rw [ht]
  exact ⟨_, rfl⟩

variable {R : Cache → Cache → Prop} {S : Tree → Tree → Prop} {isDefined : String → Bool} {policy policy' : Policy}

/-- Under each name, in one order, the two scopes have descriptions that lower alike. -/
def LowersAlike (R : Cache → Cache → Prop) (S : Tree → Tree → Prop) (isDefined : String → Bool)
    (policy policy' : Policy) : List (String × Description) → List (String × Description) → Prop :=
  List.Forall₂ fun e e' => e.1 = e'.1 ∧
    e.2.LowersAlike R S (readScoped isDefined) (readScoped isDefined) isDefined policy policy' e'.2

theorem matches_lowerAll {ds ds' : List (String × Description)} (h : LowersAlike R S isDefined policy policy' ds ds') :
    Matches R (Definitions.Rel S) (lowerAll isDefined policy ds) (lowerAll isDefined policy' ds') := by
  unfold LowersAlike at h
  induction h with
  | nil =>
    rw [lowerAll, lowerAll]
    exact matches_pure .nil
  | @cons e e' _ _ he _ ih =>
    obtain ⟨name, d⟩ := e
    obtain ⟨_, d'⟩ := e'
    obtain ⟨rfl, hd⟩ := he
    rw [lowerAll, lowerAll]
    exact (hd [.key name]).bind fun t t' ht => ih.bind fun trees trees' hts => matches_pure (.cons ⟨rfl, ht⟩ hts)

theorem LowersAlike.names_eq : ∀ {ds ds' : List (String × Description)},
    LowersAlike R S isDefined policy policy' ds ds' → ds.map (·.1) = ds'.map (·.1)
  | _, _, .nil => rfl
  | _, _, .cons ⟨hn, _⟩ h => by rw [List.map_cons, List.map_cons, hn, names_eq h]

/-- The same definitions under two policies. -/
theorem lowersAlike_self (hS : Tree.Congruence policy policy' S) : ∀ (ds : List (String × Description)),
    LowersAlike R S isDefined policy policy' ds ds
  | [] => .nil
  | (_, d) :: ds => .cons ⟨rfl, d.lowersAlike_self hS fun path text => (idle_readScoped isDefined path text).matches⟩
    (lowersAlike_self hS ds)

/-- The scope with another description under one of its names. -/
def redefine (s : Scope) (name : String) (d : Description) : Scope where
  definitions := Assay.redefine name d s.definitions
  distinct := by
    rw [map_fst_redefine]
    exact s.distinct

theorem names_redefine (s : Scope) (name : String) (d : Description) : (s.redefine name d).names = s.names :=
  map_fst_redefine name d s.definitions

/-- Two descriptions under one name of a scope. -/
theorem lowersAlike_redefine (hS : Tree.Congruence policy policy' S) (s : Scope) (name : String) {d d' : Description}
    (h : d.LowersAlike R S (readScoped isDefined) (readScoped isDefined) isDefined policy policy' d') :
      LowersAlike R S isDefined policy policy' (s.redefine name d).definitions (s.redefine name d').definitions := by
  refine List.forall₂_map_left_iff.2 (List.forall₂_map_right_iff.2 (List.forall₂_same.2 fun e _ => ⟨rfl, ?_⟩))
  dsimp only
  split
  · exact h
  · exact e.2.lowersAlike_self hS fun path text => (idle_readScoped isDefined path text).matches

/-- What two scopes compile to side by side: related trees, with the limits of their options. -/
structure CompiledAlike (S : Tree → Tree → Prop) (options options' : Options) (compiled compiled' : CompiledScope) :
    Prop where
  definitions : Definitions.Rel S compiled.definitions compiled'.definitions
  maxDepth : compiled.maxDepth = options.maxDepth
  maxDepth' : compiled'.maxDepth = options'.maxDepth

theorem CompiledAlike.eq {options : Options} {compiled compiled' : CompiledScope}
    (h : CompiledAlike Eq options options compiled compiled') : compiled = compiled' := by
  obtain ⟨defs, maxDepth⟩ := compiled
  obtain ⟨defs', maxDepth'⟩ := compiled'
  obtain ⟨hdefs, rfl, rfl⟩ := h
  obtain rfl : defs = defs' := hdefs.eq
  rfl

/-- **Scopes whose definitions lower alike compile alike**: with the same error, also if it is a cycle of names, or to
related trees. -/
theorem sameResult_compile {s s' : Scope} {options options' : Options}
    (hheads : ∀ t t', S t t' → t.heads = t'.heads)
    (h : LowersAlike BothSound S s.names.contains options.policy options'.policy s.definitions s'.definitions) :
      SameResult (CompiledAlike S options options') (s.compile options) (s'.compile options') := by
  have hn : s.names = s'.names := h.names_eq
  have hlower := (matches_lowerAll h [] [] ⟨Cache.sound_nil, Cache.sound_nil⟩).1
  rw [compile_eq, compile_eq, ← hn]
  refine hlower.bind fun defs defs' hd => ?_
  rw [hd.unguardedCycle?_eq hheads]
  cases defs'.unguardedCycle? with
  | some names => exact .error _
  | none => exact .ok ⟨hd, rfl, rfl⟩

end Scope

end Assay
