import Assay.Proofs.Lowering
import Mathlib.Data.List.Forall2
/-!
# Which tree a description becomes

The trees of descriptions, construct by construction and without paths and caches (`Description.Compiles`).  Compilation
keeps its cache sound, whether it succeeds or not, and what it returns is such a tree (`Description.yields_lower`): so
an expression means the same whether it is read or found.  Where there is such a tree compilation returns it
(`Description.returns_lower`), so that there is at most one (`Description.Compiles.unique`).  A scope compiles to the
trees of its descriptions (`Scope.compile_eq_ok_iff_compilesAll`).
-/
namespace Assay

theorem exists_of_rel_some {α β : Type} {R : α → β → Prop} {a : α} {o : Option β} (h : Option.Rel R (some a) o) :
    ∃ b, o = some b ∧ R a b := by
  cases h with
  | some h => exact ⟨_, rfl, h⟩

/-- Every expression in the cache means what is kept for it. -/
def Cache.Sound (cache : Cache) : Prop :=
  ∀ text c, cache.lookup text = some c → Constraint.parse (fun _ => false) text = .ok c

namespace Tree

theorem splitOptional_snd (t : Tree) : t.splitOptional.2 = t.isOptional := by
  cases t with
  | leaf c => cases c <;> rfl
  | _ => rfl

theorem splitOptional_of_isOptional_eq_false {t : Tree} (h : t.isOptional = false) : t.splitOptional.1 = t := by
  cases t with
  | leaf c =>
    cases c with
    | optional c => cases h
    | _ => rfl
  | _ => rfl

end Tree

namespace Cache

theorem sound_nil : Sound [] := fun _ _ h => by cases h

theorem Sound.cons {cache : Cache} (h : cache.Sound) {text : String} {c : Constraint}
    (hc : Constraint.parse (fun _ => false) text = .ok c) : Sound ((text, c) :: cache) := by
  intro text' c' hl
  rw [List.lookup_cons] at hl
  split at hl
  · rename_i he
    cases hl
    rw [beq_iff_eq.1 he, hc]
  · exact h text' c' hl

end Cache

namespace Lowering

variable {α β : Type} {P : α → Prop} {Q : β → Prop}

/-- **From a sound cache the step leaves a sound cache, and what it returns satisfies `P`.** -/
def Yields (step : Lowering α) (P : α → Prop) : Prop :=
  ∀ before : Cache, before.Sound →
    (step.runFrom before).2.Sound ∧ ∀ a, (step.runFrom before).1 = .ok a → P a

theorem yields_pure {a : α} (h : P a) : Yields (pure a) P := fun _ hs => ⟨hs, fun _ ha => by cases ha; exact h⟩

theorem yields_throw (e : SchemaError) : Yields (throw e) P := fun _ hs => ⟨hs, fun _ ha => by cases ha⟩

theorem yields_get : Yields get Cache.Sound := fun _ hs => ⟨hs, fun _ ha => by cases ha; exact hs⟩

theorem yields_modify {f : Cache → Cache} (h : ∀ cache, cache.Sound → (f cache).Sound) :
    Yields (modify f) fun _ => True := fun _ hs => ⟨h _ hs, fun _ _ => trivial⟩

theorem Yields.bind {step : Lowering α} {next : α → Lowering β} (h : step.Yields P)
    (hn : ∀ a, P a → (next a).Yields Q) : (step >>= next).Yields Q := by
  intro before hs
  rw [runFrom_bind]
  obtain ⟨hs', hp⟩ := h before hs
  cases hr : step.runFrom before with
  | mk result between =>
    rw [hr] at hs' hp
    cases result with
    | error e => exact ⟨hs', fun _ ha => by cases ha⟩
    | ok a => exact hn a (hp a rfl) between hs'

/-- From every sound cache the step returns `a` and leaves a sound cache. -/
def Returns (step : Lowering α) (a : α) : Prop :=
  ∀ before : Cache, before.Sound → ∃ after : Cache, after.Sound ∧ step.runFrom before = (.ok a, after)

theorem returns_pure (a : α) : Returns (pure a) a := fun before hs => ⟨before, hs, rfl⟩

theorem Returns.bind {step : Lowering α} {next : α → Lowering β} {a : α} {b : β} (h : step.Returns a)
    (hn : (next a).Returns b) : (step >>= next).Returns b := by
  intro before hs
  obtain ⟨between, hs', ha⟩ := h before hs
  obtain ⟨after, hs'', hb⟩ := hn between hs'
  exact ⟨after, hs'', bind_eq_ok.2 ⟨a, between, ha, hb⟩⟩

end Lowering

open Lowering (yields_pure yields_throw yields_get yields_modify returns_pure)

theorem runFrom_readCached (path : Path) (text : String) (cache : Cache) : (readCached path text).runFrom cache =
    match cache.lookup text with
      | some c => (.ok c, cache)
      | none => match Constraint.parse (fun _ => false) text with
        | .ok c => (.ok c, (text, c) :: cache)
        | .error e => (.error (.constraint path e), cache) := by
  have hget : (get : Lowering Cache).runFrom cache = (.ok cache, cache) := rfl
  rw [readCached, Lowering.runFrom_bind, hget]
  dsimp only
  cases cache.lookup text with
  | some c => rfl
  | none => cases Constraint.parse (fun _ => false) text <;> rfl

theorem yields_readCached (path : Path) (text : String) :
    (readCached path text).Yields fun c => Constraint.parse (fun _ => false) text = .ok c := by
  refine yields_get.bind fun cache hs => ?_
  split
  · rename_i c hc
    exact yields_pure (hs text c hc)
  · split
    · rename_i c hp
      exact (yields_modify fun _ hs => hs.cons hp).bind fun _ _ => yields_pure hp
    · exact yields_throw _

theorem yields_readScoped (isDefined : String → Bool) (path : Path) (text : String) :
    (readScoped isDefined path text).Yields fun c => Constraint.parse isDefined text = .ok c := by
  unfold readScoped
  cases Constraint.parse isDefined text with
  | error e => exact yields_throw _
  | ok c => exact yields_pure rfl

/-- A checked constraint is well formed, and its references are defined. -/
theorem yields_checkConstraint (isDefined : String → Bool) (path : Path) (c : Constraint) :
    (checkConstraint isDefined path c).Yields fun _ =>
      c.check = .ok () ∧ ∀ name ∈ c.references, isDefined name = true := by
  unfold checkConstraint
  cases hc : c.check with
  | error e => exact (yields_throw (P := fun _ => False) _).bind fun _ h => h.elim
  | ok _ =>
    dsimp only
    cases hf : c.references.find? (!isDefined ·) with
    | some name => exact yields_throw _
    | none =>
      refine yields_pure ⟨rfl, fun name hn => ?_⟩
      simpa using List.find?_eq_none.1 hf name hn

/-- No element carries an optional marker. -/
theorem yields_checkElement (path : Path) (t : Tree) :
    (checkElement path t).Yields fun u => u = t ∧ t.isOptional = false := by
  unfold checkElement
  cases h : t.isOptional with
  | true => exact yields_throw _
  | false => exact yields_pure ⟨rfl, rfl⟩

theorem returns_readScoped {isDefined : String → Bool} {text : String} {c : Constraint}
    (h : Constraint.parse isDefined text = .ok c) (path : Path) : (readScoped isDefined path text).Returns c := by
  rw [readScoped, h]
  exact returns_pure c

theorem returns_readCached {text : String} {c : Constraint} (h : Constraint.parse (fun _ => false) text = .ok c)
    (path : Path) : (readCached path text).Returns c := by
  intro before hs
  rw [runFrom_readCached]
  cases hl : before.lookup text with
  | some c' =>
    obtain rfl : c' = c := Except.ok.inj ((hs text c' hl).symm.trans h)
    exact ⟨before, hs, rfl⟩
  | none =>
    rw [h]
    exact ⟨(text, c) :: before, hs.cons h, rfl⟩

theorem returns_checkConstraint {isDefined : String → Bool} {c : Constraint} (hc : c.check = .ok ())
    (hd : ∀ name ∈ c.references, isDefined name = true) (path : Path) :
      (checkConstraint isDefined path c).Returns () := by
  have hf : c.references.find? (!isDefined ·) = none := List.find?_eq_none.2 fun name hn => by simp [hd name hn]
  unfold checkConstraint
  rw [hc, hf]
  exact returns_pure ()

theorem returns_checkElement {t : Tree} (h : t.isOptional = false) (path : Path) : (checkElement path t).Returns t := by
  rw [checkElement, h]
  exact returns_pure t

namespace Description

mutual

/-- **The tree that a description becomes**, where names that `isDefined` accepts are references and `policy` is that of
objects without one of their own. -/
inductive Compiles (isDefined : String → Bool) (policy : Policy) : Description → Tree → Prop
  | expression {text : String} {c : Constraint} :
    Constraint.parse isDefined text = .ok c → Compiles isDefined policy (expression text) (.leaf c)
  | constraint {c : Constraint} : c.check = .ok () → (∀ name ∈ c.references, isDefined name = true) →
    Compiles isDefined policy (constraint c) (.leaf c)
  | object {fields : List FieldDescription} {own : Option Policy} {trees : List Field} :
    CompilesFields isDefined policy [] fields trees →
      Compiles isDefined policy (object fields own) (.object trees (own.getD policy))
  | array {item : Description} {t : Tree} :
    Compiles isDefined policy item t → t.isOptional = false → Compiles isDefined policy (array item) (.array t)
  | tuple {items : List Description} {trees : List Tree} :
    CompilesEach isDefined policy items trees → Compiles isDefined policy (tuple items) (.tuple trees)
  | compiled {v : Validator} : v.definitions = none → Compiles isDefined policy (compiled v) v.root

/-- Fields keep their names, of which none is among those `declared` before.  An optional marker goes from the tree of a
field to the field. -/
inductive CompilesFields (isDefined : String → Bool) (policy : Policy) :
    List String → List FieldDescription → List Field → Prop
  | nil (declared : List String) : CompilesFields isDefined policy declared [] []
  | cons {declared : List String} {name : String} {d : Description} {optional : Bool} {t : Tree}
    {rest : List FieldDescription} {trees : List Field} :
    Compiles isDefined policy d t → name ∉ declared →
      CompilesFields isDefined policy (declared ++ [name]) rest trees →
      CompilesFields isDefined policy declared (⟨name, d, optional⟩ :: rest)
        (⟨name, optional || t.splitOptional.2, t.splitOptional.1⟩ :: trees)

/-- Items become trees without optional markers, each in its place. -/
inductive CompilesEach (isDefined : String → Bool) (policy : Policy) : List Description → List Tree → Prop
  | nil : CompilesEach isDefined policy [] []
  | cons {d : Description} {t : Tree} {rest : List Description} {trees : List Tree} :
    Compiles isDefined policy d t → t.isOptional = false → CompilesEach isDefined policy rest trees →
      CompilesEach isDefined policy (d :: rest) (t :: trees)

end

section Fields

variable {isDefined : String → Bool} {policy : Policy}

/-- Fields keep their names. -/
theorem CompilesFields.names_eq : ∀ {declared : List String} {fields : List FieldDescription} {trees : List Field},
    CompilesFields isDefined policy declared fields trees → trees.map (·.name) = fields.map (·.name)
  | _, _, _, .nil _ => rfl
  | _, _, _, .cons _ _ h => by rw [List.map_cons, List.map_cons, h.names_eq]

theorem CompilesFields.not_mem_declared : ∀ {declared : List String} {fields : List FieldDescription}
    {trees : List Field}, CompilesFields isDefined policy declared fields trees → ∀ f ∈ trees, f.name ∉ declared
  | _, _, _, .nil _ => fun _ hf => nomatch hf
  | _, _, _, .cons _ hn h => List.forall_mem_cons.2
    ⟨hn, fun f hf hd => h.not_mem_declared f hf (List.mem_append_left _ hd)⟩

/-- **No two fields have one name.** -/
theorem CompilesFields.nodup : ∀ {declared : List String} {fields : List FieldDescription} {trees : List Field},
    CompilesFields isDefined policy declared fields trees → (trees.map (·.name)).Nodup
  | _, _, _, .nil _ => List.nodup_nil
  | _, _, _, .cons _ _ h => by
    rw [List.map_cons, List.nodup_cons]
    refine ⟨fun hm => ?_, h.nodup⟩
    obtain ⟨f, hf, he⟩ := List.mem_map.1 hm
    exact h.not_mem_declared f hf (he ▸ List.mem_append_right _ List.mem_cons_self)

/-- A compiled object declares the names of its fields. -/
theorem CompilesFields.declares_iff {declared : List String} {fields : List FieldDescription} {trees : List Field}
    (h : CompilesFields isDefined policy declared fields trees) {k : String} :
      declares trees k = true ↔ ∃ f ∈ fields, f.name = k := by
  have hm : declares trees k = true ↔ k ∈ trees.map (·.name) := by
    unfold declares
    rw [List.any_eq_true, List.mem_map]
    simp only [beq_iff_eq]
  rw [hm, h.names_eq, List.mem_map]

end Fields

section Lower

variable {read : Reading} {isDefined : String → Bool}

mutual

/-- **Lowering yields the tree that the description becomes**, as reading yields what an expression means. -/
theorem yields_lower (hr : ∀ path text, (read path text).Yields fun c => Constraint.parse isDefined text = .ok c)
    (policy : Policy) : ∀ (d : Description) (path : Path),
      (d.lower read isDefined policy path).Yields (Compiles isDefined policy d)
  | expression text, path => by
    rw [lower]
    exact (hr path text).bind fun c hc => yields_pure (.expression hc)
  | constraint c, path => by
    rw [lower]
    exact (yields_checkConstraint isDefined path c).bind fun _ hc => yields_pure (.constraint hc.1 hc.2)
  | object fields own, path => by
    rw [lower]
    exact (yields_lowerFields hr policy fields path []).bind fun trees ht => yields_pure (.object ht)
  | array item, path => by
    rw [lower]
    refine (yields_lower hr policy item path).bind fun t ht => (yields_checkElement path t).bind fun u hu => ?_
    rw [hu.1]
    exact yields_pure (.array ht hu.2)
  | tuple items, path => by
    rw [lower]
    exact (yields_lowerItems hr policy items path 0).bind fun trees ht => yields_pure (.tuple ht)
  | compiled v, path => by
    rw [lower]
    cases hv : v.definitions with
    | some _ => exact yields_throw _
    | none => exact yields_pure (.compiled hv)

theorem yields_lowerFields (hr : ∀ path text, (read path text).Yields fun c => Constraint.parse isDefined text = .ok c)
    (policy : Policy) : ∀ (fields : List FieldDescription) (path : Path) (declared : List String),
      (lowerFields read isDefined policy path declared fields).Yields (CompilesFields isDefined policy declared fields)
  | [], path, declared => by
    rw [lowerFields]
    exact yields_pure (.nil declared)
  | ⟨name, d, optional⟩ :: rest, path, declared => by
    rw [lowerFields]
    refine (yields_lower hr policy d (path.push (.key name))).bind fun t ht => ?_
    dsimp only
    split
    · exact (yields_throw (P := fun _ => False) _).bind fun _ h => h.elim
    · rename_i hn
      refine (yields_lowerFields hr policy rest path (declared ++ [name])).bind fun trees hts => yields_pure ?_
      exact .cons ht (by simpa using hn) hts

theorem yields_lowerItems (hr : ∀ path text, (read path text).Yields fun c => Constraint.parse isDefined text = .ok c)
    (policy : Policy) : ∀ (items : List Description) (path : Path) (i : Nat),
      (lowerItems read isDefined policy path i items).Yields (CompilesEach isDefined policy items)
  | [], path, i => by
    rw [lowerItems]
    exact yields_pure .nil
  | d :: rest, path, i => by
    rw [lowerItems]
    refine (yields_lower hr policy d (path.push (.index i))).bind fun t ht => ?_
    refine (yields_checkElement _ t).bind fun u hu => ?_
    rw [hu.1]
    exact (yields_lowerItems hr policy rest path (i + 1)).bind fun trees hts => yields_pure (.cons ht hu.2 hts)

end

variable {policy : Policy}

mutual

/-- **Where a description becomes a tree, lowering returns it**, at every path, as reading returns what an expression
means. -/
theorem returns_lower (hr : ∀ path text c, Constraint.parse isDefined text = .ok c → (read path text).Returns c) :
    ∀ {d : Description} {t : Tree}, Compiles isDefined policy d t → ∀ path,
      (d.lower read isDefined policy path).Returns t
  | _, _, .expression hp, path => by
    rw [lower]
    exact (hr path _ _ hp).bind (returns_pure _)
  | _, _, .constraint hc hd, path => by
    rw [lower]
    exact (returns_checkConstraint hc hd path).bind (returns_pure _)
  | _, _, .object hf, path => by
    rw [lower]
    exact (returns_lowerFields hr hf path).bind (returns_pure _)
  | _, _, .array ht ho, path => by
    rw [lower]
    exact (returns_lower hr ht path).bind ((returns_checkElement ho path).bind (returns_pure _))
  | _, _, .tuple hts, path => by
    rw [lower]
    exact (returns_lowerItems hr hts path 0).bind (returns_pure _)
  | _, _, .compiled hv, path => by
    rw [lower, hv]
    exact returns_pure _

theorem returns_lowerFields
    (hr : ∀ path text c, Constraint.parse isDefined text = .ok c → (read path text).Returns c) :
    ∀ {declared : List String} {fields : List FieldDescription} {trees : List Field},
      CompilesFields isDefined policy declared fields trees → ∀ path,
        (lowerFields read isDefined policy path declared fields).Returns trees
  | _, _, _, .nil _, path => by
    rw [lowerFields]
    exact returns_pure _
  | _, _, _, @CompilesFields.cons _ _ declared name _ _ _ _ _ ht hn hts, path => by
    rw [lowerFields]
    refine (returns_lower hr ht _).bind ?_
    have hc : declared.contains name = false := by simpa using hn
    rw [hc]
    exact (returns_lowerFields hr hts path).bind (returns_pure _)

theorem returns_lowerItems
    (hr : ∀ path text c, Constraint.parse isDefined text = .ok c → (read path text).Returns c) :
    ∀ {items : List Description} {trees : List Tree}, CompilesEach isDefined policy items trees → ∀ path i,
      (lowerItems read isDefined policy path i items).Returns trees
  | _, _, .nil, path, i => by
    rw [lowerItems]
    exact returns_pure _
  | _, _, .cons ht ho hts, path, i => by
    rw [lowerItems]
    refine (returns_lower hr ht _).bind ((returns_checkElement ho _).bind ?_)
    exact (returns_lowerItems hr hts path (i + 1)).bind (returns_pure _)

end

/-- **A description becomes at most one tree.** -/
theorem Compiles.unique {d : Description} {t t' : Tree} (h : Compiles isDefined policy d t)
    (h' : Compiles isDefined policy d t') : t = t' := by
  have hr : ∀ path text c, Constraint.parse isDefined text = .ok c → (readScoped isDefined path text).Returns c :=
    fun path text c hp => returns_readScoped hp path
  obtain ⟨after, -, ht⟩ := returns_lower hr h [] [] Cache.sound_nil
  obtain ⟨after', -, ht'⟩ := returns_lower hr h' [] [] Cache.sound_nil
  rw [ht] at ht'
  exact Except.ok.inj (congrArg Prod.fst ht')

end Lower

end Description

open Description (Compiles)

namespace Compiler

variable {c : Compiler} {d : Description} {v : Validator}

/-- The compilers that there are: new ones, and those that have compiled something more, or have failed to. -/
inductive Reached : Compiler → Prop
  | new (options : Options) : Reached { options }
  | compile {c : Compiler} (d : Description) : Reached c → Reached (c.compile d).2

theorem compile_eq (c : Compiler) (d : Description) : c.compile d =
    (((d.lower readCached (fun _ => false) c.options.policy []).runFrom c.cache).1.map
        fun root => ⟨root, none, c.options.maxDepth⟩,
      ⟨c.options, ((d.lower readCached (fun _ => false) c.options.policy []).runFrom c.cache).2⟩) := rfl

theorem Reached.sound (h : c.Reached) : c.cache.Sound := by
  induction h with
  | new options => exact Cache.sound_nil
  | @compile c d _ ih => exact (Description.yields_lower yields_readCached _ d [] c.cache ih).1

/-- **What a compiler returns** is the tree of the description, on its own and with the limit of the compiler. -/
theorem Reached.compiles (hc : c.Reached) (h : (c.compile d).1 = .ok v) :
    ∃ root, v = ⟨root, none, c.options.maxDepth⟩ ∧ Compiles (fun _ => false) c.options.policy d root := by
  rw [compile_eq] at h
  have hy := (Description.yields_lower yields_readCached c.options.policy d [] c.cache hc.sound).2
  revert h hy
  cases ((d.lower readCached (fun _ => false) c.options.policy []).runFrom c.cache).1 with
  | error e => intro h; cases h
  | ok root =>
    intro h hy
    cases h
    exact ⟨root, rfl, hy root rfl⟩

/-- A compiler returns the tree that the description becomes. -/
theorem Reached.compile_eq_ok (hc : c.Reached) {root : Tree} (h : Compiles (fun _ => false) c.options.policy d root) :
    (c.compile d).1 = .ok ⟨root, none, c.options.maxDepth⟩ := by
  have hr := Description.returns_lower (fun path text c hp => returns_readCached hp path) h []
  obtain ⟨after, -, ht⟩ := hr c.cache hc.sound
  rw [compile_eq, ht]
  rfl

end Compiler

namespace Scope

variable {isDefined : String → Bool} {policy : Policy}

/-- Each definition becomes a tree under its name. -/
def CompilesAll (isDefined : String → Bool) (policy : Policy) : List (String × Description) → Definitions → Prop :=
  List.Forall₂ fun d t => t.1 = d.1 ∧ Compiles isDefined policy d.2 t.2

theorem yields_lowerAll : ∀ (ds : List (String × Description)),
    (lowerAll isDefined policy ds).Yields (CompilesAll isDefined policy ds)
  | [] => by
    rw [lowerAll]
    exact yields_pure .nil
  | (name, d) :: rest => by
    rw [lowerAll]
    refine (Description.yields_lower (yields_readScoped isDefined) policy d [.key name]).bind fun t ht => ?_
    exact (yields_lowerAll rest).bind fun defs hd => yields_pure (.cons ⟨rfl, ht⟩ hd)

theorem returns_lowerAll {ds : List (String × Description)} {defs : Definitions}
    (h : CompilesAll isDefined policy ds defs) : (lowerAll isDefined policy ds).Returns defs := by
  have hr : ∀ path text c, Constraint.parse isDefined text = .ok c → (readScoped isDefined path text).Returns c :=
    fun path text c hp => returns_readScoped hp path
  unfold CompilesAll at h
  induction h with
  | nil =>
    rw [lowerAll]
    exact returns_pure []
  | @cons d t ds defs hd _ ih =>
    obtain ⟨name, d⟩ := d
    obtain ⟨_, t⟩ := t
    obtain ⟨rfl, ht⟩ := hd
    rw [lowerAll]
    exact (Description.returns_lower hr ht [.key _]).bind (ih.bind (returns_pure _))

theorem CompilesAll.rel_lookup (name : String) : ∀ {ds : List (String × Description)} {defs : Definitions},
    CompilesAll isDefined policy ds defs →
      Option.Rel (Compiles isDefined policy) (ds.lookup name) (defs.lookup name)
  | [], _, .nil => .none
  | (_, _) :: _, (_, _) :: _, .cons ⟨rfl, ht⟩ hd => by
    rw [List.lookup_cons, List.lookup_cons]
    split
    · exact .some ht
    · exact rel_lookup name hd

section Compiled

variable {s : Scope} {options : Options} {compiled : CompiledScope} {name : String}

/-- **What a scope compiles to**: the trees of its descriptions, if no definition follows itself unguarded. -/
theorem compile_eq_ok_iff_compilesAll : s.compile options = .ok compiled ↔
    CompilesAll s.names.contains options.policy s.definitions compiled.definitions ∧
      compiled.definitions.unguardedCycle? = none ∧ compiled.maxDepth = options.maxDepth := by
  rw [compile_eq_ok_iff]
  refine and_congr_left fun _ => ⟨fun h => ?_, fun h => ?_⟩
  · exact (yields_lowerAll s.definitions [] Cache.sound_nil).2 _ h
  · obtain ⟨after, -, ht⟩ := returns_lowerAll h [] Cache.sound_nil
    exact congrArg Prod.fst ht

theorem rel_lookup_compile (h : s.compile options = .ok compiled) (name : String) :
    Option.Rel (Compiles s.names.contains options.policy) (s.definitions.lookup name)
      (compiled.definitions.lookup name) :=
  (compile_eq_ok_iff_compilesAll.1 h).1.rel_lookup name

/-- **Under every name that it defines a compiled scope holds the tree of the description.** -/
theorem compiles_of_lookup (h : s.compile options = .ok compiled) {d : Description}
    (hd : s.definitions.lookup name = some d) :
      ∃ t, compiled.definitions.lookup name = some t ∧ Compiles s.names.contains options.policy d t := by
  have hr := rel_lookup_compile h name
  rw [hd] at hr
  exact exists_of_rel_some hr

/-- A compiled scope holds nothing else. -/
theorem compiles_of_lookup_compiled (h : s.compile options = .ok compiled) {t : Tree}
    (ht : compiled.definitions.lookup name = some t) :
      ∃ d, s.definitions.lookup name = some d ∧ Compiles s.names.contains options.policy d t := by
  have hr := rel_lookup_compile h name
  rw [ht] at hr
  cases hd : s.definitions.lookup name with
  | none => rw [hd] at hr; cases hr
  | some d =>
    rw [hd] at hr
    cases hr with
    | some hc => exact ⟨d, rfl, hc⟩

theorem lookup_compile_eq_none (h : s.compile options = .ok compiled) (hd : s.definitions.lookup name = none) :
    compiled.definitions.lookup name = none := by
  cases ht : compiled.definitions.lookup name with
  | none => rfl
  | some t =>
    obtain ⟨d, hd', -⟩ := compiles_of_lookup_compiled h ht
    rw [hd] at hd'
    cases hd'

end Compiled

end Scope

end Assay
