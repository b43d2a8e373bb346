import Assay.Proofs.Satisfaction
import Mathlib.Data.List.Induction
/-!
# The first fault of a description

What compilation asks of a description, part by part (`Description.demands`): an expression has to be read, a constraint
to be well formed with defined references, a field to have a name of its own, an element to carry no optional marker,
and an embedded validator to stand on its own.  A demand stands at the path of the part that it is about
(`Description.mem_demands_iff`).  A step of compilation succeeds if the demands of its part are met, and otherwise
reports the first that fails, and so do steps in sequence (`Lowering.Checks.bind`); so a description compiles if it has
no fault (`Description.WellFormed`) and is refused for its first one (`Description.lower_reports_first_fault`).
-/
namespace Assay

/-- What is asked of a description at one place. -/
inductive Demand
  | expression (text : String)
  | constraint (c : Constraint)
  /-- The field `name` is declared after fields with other names. -/
  | distinct (declared : List String) (name : String)
  /-- An element carries no optional marker. -/
  | unmarked (element : Description)
  /-- An embedded validator needs no definitions. -/
  | standalone (v : Validator)

namespace Demand

/-- The demand is met, where the names that `isDefined` accepts are references. -/
def Holds (isDefined : String → Bool) : Demand → Prop
  | expression text => ∃ c, Constraint.parse isDefined text = .ok c
  | constraint c => c.check = .ok () ∧ ∀ name ∈ c.references, isDefined name = true
  | distinct declared name => name ∉ declared
  | unmarked element => ¬element.Marked isDefined
  | standalone v => v.definitions = none

/-- **The demand fails at the path with the error.** -/
inductive Fails (isDefined : String → Bool) (path : Path) : Demand → SchemaError → Prop
  | unread {text : String} {e : ConstraintError} :
    Constraint.parse isDefined text = .error e → Fails isDefined path (expression text) (.constraint path e)
  | malformed {c : Constraint} {e : ConstraintError} :
    c.check = .error e → Fails isDefined path (constraint c) (.constraint path e)
  | undefined {c : Constraint} {name : String} :
    c.check = .ok () → c.references.find? (!isDefined ·) = some name →
      Fails isDefined path (constraint c) (.constraint path (.unknownType name 0))
  | duplicate {declared : List String} {name : String} :
    name ∈ declared → Fails isDefined path (distinct declared name) (.duplicateField path name)
  | misplaced {element : Description} :
    element.Marked isDefined → Fails isDefined path (unmarked element) (.misplacedOptional path)
  | foreign {v : Validator} :
    v.definitions ≠ none → Fails isDefined path (standalone v) (.foreignScope path)

variable {isDefined : String → Bool} {path : Path} {demand : Demand} {e e' : SchemaError}

theorem Fails.not_holds (h : demand.Fails isDefined path e) : ¬demand.Holds isDefined := by
  intro hd
  cases h with
  | unread hp =>
    obtain ⟨c, hc⟩ := hd
    cases hp.symm.trans hc
  | malformed hc => cases hc.symm.trans hd.1
  | @undefined c name hc hf =>
    have hu : isDefined name = false := by simpa using List.find?_some hf
    rw [hd.2 name (List.mem_of_find?_eq_some hf)] at hu
    cases hu
  | duplicate hm => exact hd hm
  | misplaced hm => exact hd hm
  | foreign hv => exact hv hd

/-- A demand fails with one error. -/
theorem Fails.unique (h : demand.Fails isDefined path e) (h' : demand.Fails isDefined path e') : e = e' := by
  cases h with
  | unread hp =>
    obtain ⟨hp'⟩ := h'
    cases hp.symm.trans hp'
    rfl
  | malformed hc =>
    cases h' with
    | malformed hc' =>
      cases hc.symm.trans hc'
      rfl
    | undefined hc' _ => cases hc.symm.trans hc'
  | undefined hc hf =>
    cases h' with
    | malformed hc' => cases hc.symm.trans hc'
    | undefined _ hf' =>
      cases hf.symm.trans hf'
      rfl
  | duplicate _ => cases h'; rfl
  | misplaced _ => cases h'; rfl
  | foreign _ => cases h'; rfl

end Demand

/-- **The error of the first demand that fails**, among demands at their paths. -/
def FirstFault (isDefined : String → Bool) (places : List (Path × Demand)) (e : SchemaError) : Prop :=
  ∃ before path demand after, places = before ++ (path, demand) :: after ∧
    (∀ place ∈ before, place.2.Holds isDefined) ∧ demand.Fails isDefined path e

namespace FirstFault

variable {isDefined : String → Bool} {places places' : List (Path × Demand)} {path : Path} {demand : Demand}
  {e e' : SchemaError}

theorem head (h : demand.Fails isDefined path e) : FirstFault isDefined ((path, demand) :: places) e :=
  ⟨[], path, demand, places, rfl, nofun, h⟩

theorem append (h : FirstFault isDefined places e) (places' : List (Path × Demand)) :
    FirstFault isDefined (places ++ places') e := by
  obtain ⟨before, path, demand, after, rfl, hb, hf⟩ := h
  exact ⟨before, path, demand, after ++ places', List.append_assoc _ _ _, hb, hf⟩

/-- Demands that are met do not matter. -/
theorem after (hp : ∀ place ∈ places, place.2.Holds isDefined) (h : FirstFault isDefined places' e) :
    FirstFault isDefined (places ++ places') e := by
  obtain ⟨before, path, demand, after, rfl, hb, hf⟩ := h
  refine ⟨places ++ before, path, demand, after, (List.append_assoc _ _ _).symm, ?_, hf⟩
  exact List.forall_mem_append.2 ⟨hp, hb⟩

theorem not_all_hold (h : FirstFault isDefined places e) : ¬∀ place ∈ places, place.2.Holds isDefined := by
  obtain ⟨before, path, demand, after, rfl, -, hf⟩ := h
  intro hp
  exact hf.not_holds (hp _ (List.mem_append_right _ List.mem_cons_self))

/-- Of two faults that are first neither comes before the other. -/
theorem unique (h : FirstFault isDefined places e) (h' : FirstFault isDefined places e') : e = e' := by
  obtain ⟨before, path, demand, after, rfl, hb, hf⟩ := h
  obtain ⟨before', path', demand', after', he, hb', hf'⟩ := h'
  rcases List.append_eq_append_iff.1 he with ⟨between, rfl, hs⟩ | ⟨between, rfl, hs⟩
  · cases between with
    | nil =>
      cases hs
      exact hf.unique hf'
    | cons place between =>
      cases hs
      exact absurd (hb' _ (List.mem_append_right _ List.mem_cons_self)) hf.not_holds
  · cases between with
    | nil =>
      cases hs
      exact hf.unique hf'
    | cons place between =>
      cases hs
      exact absurd (hb _ (List.mem_append_right _ List.mem_cons_self)) hf'.not_holds

end FirstFault

theorem Path.push_append (path : Path) (s : Segment) (q r : Path) : path.push s ++ q ++ r = path ++ (s :: q) ++ r := by
  simp [Path.push]

/-- No two elements have one image if none has that of one before it. -/
theorem nodup_map_of_splits {α β : Type} {f : α → β} : ∀ {xs : List α},
    (∀ before x after, xs = before ++ x :: after → f x ∉ before.map f) → (xs.map f).Nodup := by
  intro xs
  induction xs using List.reverseRecOn with
  | nil => exact fun _ => List.nodup_nil
  | append_singleton xs a ih =>
    intro h
    rw [List.map_append, List.nodup_append]
    refine ⟨ih fun before x after hs => ?_, List.pairwise_singleton _ _, fun y hy z hz => ?_⟩
    · exact h before x (after ++ [a]) (by rw [hs, List.append_assoc, List.cons_append])
    · obtain rfl := List.mem_singleton.1 hz
      rintro rfl
      exact h xs a [] rfl hy

namespace Description

mutual

/-- **What compilation asks of a description that stands at a path**, from its first part to its last. -/
def demands (path : Path) : Description → List (Path × Demand)
  | expression text => [(path, .expression text)]
  | constraint c => [(path, .constraint c)]
  | object fields _ => demandsFields path [] fields
  | array item => demands path item ++ [(path, .unmarked item)]
  | tuple items => demandsItems path 0 items
  | compiled v => [(path, .standalone v)]

/-- That the name of a field is new is asked after its description, at the path of the object. -/
def demandsFields (path : Path) (declared : List String) : List FieldDescription → List (Path × Demand)
  | [] => []
  | ⟨name, d, _⟩ :: rest =>
    demands (path.push (.key name)) d ++ (path, .distinct declared name) ::
      demandsFields path (declared ++ [name]) rest

def demandsItems (path : Path) : Nat → List Description → List (Path × Demand)
  | _, [] => []
  | i, d :: rest =>
    demands (path.push (.index i)) d ++ (path.push (.index i), .unmarked d) :: demandsItems path (i + 1) rest

end

/-- **The part of a description at a path**, with a key for each field around it, an index for each place in a tuple and
nothing for an array. -/
inductive Part : Description → Path → Description → Prop
  | here (d : Description) : Part d [] d
  | field {fields : List FieldDescription} {own : Option Policy} {f : FieldDescription} {p : Path} {e : Description} :
    f ∈ fields → Part f.description p e → Part (object fields own) (.key f.name :: p) e
  | item {d : Description} {p : Path} {e : Description} : Part d p e → Part (array d) p e
  | place {items : List Description} {i : Nat} {d : Description} {p : Path} {e : Description} :
    items[i]? = some d → Part d p e → Part (tuple items) (.index i :: p) e

/-- What is asked of a description apart from its parts, and where: of a place in a tuple at that place. -/
inductive Asks : Description → Path → Demand → Prop
  | expression (text : String) : Asks (expression text) [] (.expression text)
  | constraint (c : Constraint) : Asks (constraint c) [] (.constraint c)
  | distinct (before : List FieldDescription) (f : FieldDescription) (after : List FieldDescription)
    (own : Option Policy) : Asks (object (before ++ f :: after) own) [] (.distinct (before.map (·.name)) f.name)
  | item (d : Description) : Asks (array d) [] (.unmarked d)
  | place {items : List Description} {i : Nat} {d : Description} :
    items[i]? = some d → Asks (tuple items) [.index i] (.unmarked d)
  | compiled (v : Validator) : Asks (compiled v) [] (.standalone v)

/-- **A description without faults**, where the names that `isDefined` accepts are references. -/
structure WellFormed (isDefined : String → Bool) (d : Description) : Prop where
  expressions : ∀ p text, d.Part p (expression text) → ∃ c, Constraint.parse isDefined text = .ok c
  constraints : ∀ p c, d.Part p (constraint c) → c.check = .ok () ∧ ∀ name ∈ c.references, isDefined name = true
  objects : ∀ p fields own, d.Part p (object fields own) → (fields.map (·.name)).Nodup
  arrays : ∀ p item, d.Part p (array item) → ¬item.Marked isDefined
  tuples : ∀ p items, d.Part p (tuple items) → ∀ item ∈ items, ¬item.Marked isDefined
  embedded : ∀ p v, d.Part p (compiled v) → v.definitions = none

section Places

variable {path p q r : Path} {demand : Demand} {d e : Description} {declared : List String}

mutual

/-- **What is asked at which path**: each demand is about a part of the description, at the path of this part. -/
theorem mem_demands_iff : ∀ {d : Description} {path : Path}, (p, demand) ∈ d.demands path ↔
    ∃ q e r, d.Part q e ∧ e.Asks r demand ∧ p = path ++ q ++ r
  | expression text, path => by
    rw [demands, List.mem_singleton]
    constructor
    · rintro ⟨⟩
      exact ⟨[], _, [], .here _, .expression text, by simp⟩
    · rintro ⟨q, e, r, ⟨⟩, ⟨⟩, rfl⟩
      simp
  | constraint c, path => by
    rw [demands, List.mem_singleton]
    constructor
    · rintro ⟨⟩
      exact ⟨[], _, [], .here _, .constraint c, by simp⟩
    · rintro ⟨q, e, r, ⟨⟩, ⟨⟩, rfl⟩
      simp
  | compiled v, path => by
    rw [demands, List.mem_singleton]
    constructor
    · rintro ⟨⟩
      exact ⟨[], _, [], .here _, .compiled v, by simp⟩
    · rintro ⟨q, e, r, ⟨⟩, ⟨⟩, rfl⟩
      simp
  | object fields own, path => by
    rw [demands, mem_demandsFields_iff]
    constructor
    · rintro (⟨f, hf, q, e, r, hp, ha, rfl⟩ | ⟨rfl, before, f, after, rfl, rfl⟩)
      · exact ⟨.key f.name :: q, e, r, .field hf hp, ha, path.push_append _ q r⟩
      · exact ⟨[], _, [], .here _, .distinct before f after own, by simp⟩
    · rintro ⟨q, e, r, ⟨⟩ | ⟨hf, hp⟩, ha, rfl⟩
      · cases ha with
        | distinct before f after own => exact Or.inr ⟨by simp, before, f, after, rfl, rfl⟩
      · exact Or.inl ⟨_, hf, _, e, r, hp, ha, (path.push_append _ _ r).symm⟩
  | array item, path => by
    rw [demands, List.mem_append, mem_demands_iff, List.mem_singleton]
    constructor
    · rintro (⟨q, e, r, hp, ha, rfl⟩ | ⟨⟨⟩⟩)
      · exact ⟨q, e, r, .item hp, ha, rfl⟩
      · exact ⟨[], _, [], .here _, .item item, by simp⟩
    · rintro ⟨q, e, r, ⟨⟩ | hp, ha, rfl⟩
      · cases ha with
        | item => exact Or.inr (by simp)
      · rename_i hp
        exact Or.inl ⟨q, e, r, hp, ha, rfl⟩
  | tuple items, path => by
    rw [demands, mem_demandsItems_iff]
    constructor
    · rintro ⟨j, d, hd, ⟨q, e, r, hp, ha, rfl⟩ | ⟨rfl, rfl⟩⟩
      · rw [Nat.zero_add]
        exact ⟨.index j :: q, e, r, .place hd hp, ha, path.push_append _ q r⟩
      · rw [Nat.zero_add]
        exact ⟨[], _, [.index j], .here _, .place hd, by simp [Path.push]⟩
    · rintro ⟨q, e, r, ⟨⟩ | hp, ha, rfl⟩
      · cases ha with
        | place hd => exact ⟨_, _, hd, Or.inr ⟨by simp [Path.push], rfl⟩⟩
      · rename_i hd hp
        exact ⟨_, _, hd, Or.inl ⟨_, e, r, hp, ha, by rw [Nat.zero_add, path.push_append]⟩⟩

theorem mem_demandsFields_iff : ∀ {fields : List FieldDescription} {path : Path} {declared : List String},
    (p, demand) ∈ demandsFields path declared fields ↔
      (∃ f ∈ fields, ∃ q e r, f.description.Part q e ∧ e.Asks r demand ∧ p = path.push (.key f.name) ++ q ++ r) ∨
        p = path ∧ ∃ before f after, fields = before ++ f :: after ∧
          demand = .distinct (declared ++ before.map (·.name)) f.name
  | [], path, declared => by simp [demandsFields]
  | ⟨name, d, optional⟩ :: rest, path, declared => by
    rw [demandsFields, List.mem_append, List.mem_cons, mem_demands_iff, mem_demandsFields_iff]
    constructor
    · rintro (h | ⟨⟨⟩⟩ | ⟨f, hf, h⟩ | ⟨rfl, before, f, after, rfl, rfl⟩)
      · exact Or.inl ⟨_, List.mem_cons_self, h⟩
      · exact Or.inr ⟨rfl, [], _, rest, rfl, by simp⟩
      · exact Or.inl ⟨f, List.mem_cons_of_mem _ hf, h⟩
      · exact Or.inr ⟨rfl, _ :: before, f, after, rfl, by simp⟩
    · rintro (⟨f, hf, h⟩ | ⟨rfl, before, f, after, hs, rfl⟩)
      · rcases List.mem_cons.1 hf with rfl | hf
        · exact Or.inl h
        · exact Or.inr (Or.inr (Or.inl ⟨f, hf, h⟩))
      · cases before with
        | nil =>
          cases hs
          exact Or.inr (Or.inl (by simp))
        | cons g before =>
          cases hs
          exact Or.inr (Or.inr (Or.inr ⟨rfl, before, f, after, rfl, by simp⟩))

theorem mem_demandsItems_iff : ∀ {items : List Description} {path : Path} {i : Nat},
    (p, demand) ∈ demandsItems path i items ↔ ∃ j d, items[j]? = some d ∧
      ((∃ q e r, d.Part q e ∧ e.Asks r demand ∧ p = path.push (.index (i + j)) ++ q ++ r) ∨
        p = path.push (.index (i + j)) ∧ demand = .unmarked d)
  | [], path, i => by simp [demandsItems]
  | d :: rest, path, i => by
    rw [demandsItems, List.mem_append, List.mem_cons, mem_demands_iff, mem_demandsItems_iff]
    have hnext : ∀ j, i + 1 + j = i + (j + 1) := fun j => by omega
    simp only [hnext]
    constructor
    · rintro (h | ⟨⟨⟩⟩ | ⟨j, e, he, h⟩)
      · exact ⟨0, d, rfl, Or.inl h⟩
      · exact ⟨0, d, rfl, Or.inr ⟨rfl, rfl⟩⟩
      · exact ⟨j + 1, e, he, h⟩
    · rintro ⟨j, e, he, h⟩
      cases j with
      | zero =>
        cases he
        exact h.imp_right fun ⟨hp, hd⟩ => Or.inl (Prod.ext hp hd)
      | succ j => exact Or.inr (Or.inr ⟨j, e, he, h⟩)

end

/-- **A description without faults meets every demand.** -/
theorem wellFormed_iff {isDefined : String → Bool} (path : Path) :
    d.WellFormed isDefined ↔ ∀ place ∈ d.demands path, place.2.Holds isDefined := by
  constructor
  · rintro h ⟨p, demand⟩ hm
    obtain ⟨q, e, r, hp, ha, -⟩ := mem_demands_iff.1 hm
    cases ha with
    | expression text => exact h.expressions q text hp
    | constraint c => exact h.constraints q c hp
    | distinct before f after own =>
      have hn := h.objects q _ own hp
      rw [List.map_append, List.map_cons, List.nodup_append] at hn
      exact fun hf => hn.2.2 f.name hf f.name List.mem_cons_self rfl
    | item item => exact h.arrays q item hp
    | place hi => exact h.tuples q _ hp _ (List.mem_of_getElem? hi)
    | compiled v => exact h.embedded q v hp
  · intro h
    have hasks : ∀ q e r demand, d.Part q e → e.Asks r demand → demand.Holds isDefined :=
      fun q e r demand hp ha => h _ (mem_demands_iff.2 ⟨q, e, r, hp, ha, rfl⟩)
    refine ⟨fun p text hp => ?_, fun p c hp => ?_, fun p fields own hp => ?_, fun p item hp => ?_,
      fun p items hp item hi => ?_, fun p v hp => ?_⟩
    · exact hasks p _ _ _ hp (.expression text)
    · exact hasks p _ _ _ hp (.constraint c)
    · refine nodup_map_of_splits fun before f after hs => ?_
      subst hs
      exact hasks p _ _ _ hp (.distinct before f after own)
    · exact hasks p _ _ _ hp (.item item)
    · obtain ⟨i, hi⟩ := List.mem_iff_getElem?.1 hi
      exact hasks p _ _ _ hp (.place hi)
    · exact hasks p _ _ _ hp (.compiled v)

end Places

end Description

open Description (Compiles CompilesFields CompilesEach)

namespace Lowering

variable {α β : Type} {isDefined : String → Bool} {places places' : List (Path × Demand)}

/-- **From a sound cache the step succeeds if the demands are met, and otherwise reports the first that fails.** -/
def Checks (isDefined : String → Bool) (places : List (Path × Demand)) (step : Lowering α) : Prop :=
  ∀ before : Cache, before.Sound →
    (∀ a, (step.runFrom before).1 = .ok a → ∀ place ∈ places, place.2.Holds isDefined) ∧
      ∀ e, (step.runFrom before).1 = .error e → FirstFault isDefined places e

theorem checks_pure (a : α) : Checks isDefined [] (pure a) :=
  fun _ _ => ⟨fun _ _ _ hp => (List.not_mem_nil hp).elim, fun _ he => by cases he⟩

theorem checks_throw {e : SchemaError} (h : FirstFault isDefined places e) :
    Checks isDefined places (throw e : Lowering α) :=
  fun _ _ => ⟨fun _ ha => (by cases ha), fun _ he => (by cases he; exact h)⟩

/-- A step with one demand that is met. -/
theorem checks_pure_of_holds {a : α} {place : Path × Demand} (h : place.2.Holds isDefined) :
    Checks isDefined [place] (pure a) :=
  fun _ _ => ⟨fun _ _ => List.forall_mem_singleton.2 h, fun _ he => by cases he⟩

/-- Demands that are met need no test. -/
theorem Checks.after {step : Lowering α} (hp : ∀ place ∈ places, place.2.Holds isDefined)
    (h : Checks isDefined places' step) : Checks isDefined (places ++ places') step := by
  intro before hs
  obtain ⟨hok, herr⟩ := h before hs
  refine ⟨fun a ha => ?_, fun e he => ?_⟩
  · exact List.forall_mem_append.2 ⟨hp, hok a ha⟩
  · exact (herr e he).after hp

/-- **Steps in sequence check in sequence**, the second with what the first has yielded. -/
theorem Checks.bind {step : Lowering α} {next : α → Lowering β} {P : α → Prop} (h : Checks isDefined places step)
    (hy : step.Yields P) (hn : ∀ a, P a → Checks isDefined places' (next a)) :
      Checks isDefined (places ++ places') (step >>= next) := by
  intro before hs
  rw [runFrom_bind]
  obtain ⟨hok, herr⟩ := h before hs
  obtain ⟨hs', hp⟩ := hy before hs
  generalize step.runFrom before = out at hok herr hs' hp ⊢
  obtain ⟨result, between⟩ := out
  cases result with
  | error e =>
    refine ⟨fun _ hb => (nomatch hb), fun e' he => ?_⟩
    cases he
    exact (herr e rfl).append places'
  | ok a =>
    obtain ⟨hok', herr'⟩ := hn a (hp a rfl) between hs'
    refine ⟨fun b hb => ?_, fun e he => ?_⟩
    · exact List.forall_mem_append.2 ⟨hok a rfl, hok' b hb⟩
    · exact (herr' e he).after (hok a rfl)

theorem Checks.bind_pure {step : Lowering α} {f : α → β} (h : Checks isDefined places step) {P : α → Prop}
    (hy : step.Yields P) : Checks isDefined places (step >>= fun a => pure (f a)) := by
  have hb := h.bind hy fun a _ => checks_pure (f a)
  rwa [List.append_nil] at hb

section Results

variable {step : Lowering α} {cache : Cache}

theorem Checks.ok_iff (h : Checks isDefined places step) (hs : cache.Sound) :
    (∃ a, (step.runFrom cache).1 = .ok a) ↔ ∀ place ∈ places, place.2.Holds isDefined := by
  obtain ⟨hok, herr⟩ := h cache hs
  cases hr : (step.runFrom cache).1 with
  | ok a => exact ⟨fun _ => hok a hr, fun _ => ⟨a, rfl⟩⟩
  | error e => exact ⟨fun ⟨_, ha⟩ => (nomatch ha), fun hp => absurd hp (herr e hr).not_all_hold⟩

theorem Checks.error_iff (h : Checks isDefined places step) (hs : cache.Sound) {e : SchemaError} :
    (step.runFrom cache).1 = .error e ↔ FirstFault isDefined places e := by
  obtain ⟨hok, herr⟩ := h cache hs
  refine ⟨herr e, fun hf => ?_⟩
  cases hr : (step.runFrom cache).1 with
  | ok a => exact absurd (hok a hr) hf.not_all_hold
  | error e' => exact congrArg Except.error ((herr e' hr).unique hf)

end Results

end Lowering

open Lowering (Checks checks_pure checks_throw checks_pure_of_holds yields_throw)

theorem checks_readScoped (isDefined : String → Bool) (path : Path) (text : String) :
    Checks isDefined [(path, .expression text)] (readScoped isDefined path text) := by
  unfold readScoped
  cases hp : Constraint.parse isDefined text with
  | error e => exact checks_throw (.head (.unread hp))
  | ok c => exact checks_pure_of_holds ⟨c, hp⟩

theorem checks_readCached (path : Path) (text : String) :
    Checks (fun _ => false) [(path, .expression text)] (readCached path text) := by
  intro before hs
  rw [runFrom_readCached]
  cases hl : before.lookup text with
  | some c => exact ⟨fun _ _ => List.forall_mem_singleton.2 ⟨c, hs text c hl⟩, fun _ he => by cases he⟩
  | none =>
    cases hp : Constraint.parse (fun _ => false) text with
    | ok c => exact ⟨fun _ _ => List.forall_mem_singleton.2 ⟨c, hp⟩, fun _ he => by cases he⟩
    | error e =>
      refine ⟨fun _ ha => (by cases ha), fun e' he => ?_⟩
      cases he
      exact .head (.unread hp)

theorem checks_checkConstraint (isDefined : String → Bool) (path : Path) (c : Constraint) :
    Checks isDefined [(path, .constraint c)] (checkConstraint isDefined path c) := by
  unfold checkConstraint
  cases hc : c.check with
  | error e =>
    have ht : Checks isDefined [(path, .constraint c)] (throw (.constraint path e) : Lowering PUnit) :=
      checks_throw (.head (.malformed hc))
    rw [← List.append_nil [(path, Demand.constraint c)]]
    exact ht.bind (yields_throw (P := fun _ => False) _) fun _ h => h.elim
  | ok _ =>
    dsimp only
    cases hf : c.references.find? (!isDefined ·) with
    | some name => exact checks_throw (.head (.undefined hc hf))
    | none =>
      refine checks_pure_of_holds ⟨hc, fun name hn => ?_⟩
      simpa using List.find?_eq_none.1 hf name hn

theorem checks_checkElement {isDefined : String → Bool} {policy : Policy} {d : Description} {t : Tree}
    (ht : Compiles isDefined policy d t) (path : Path) :
      Checks isDefined [(path, .unmarked d)] (checkElement path t) := by
  unfold checkElement
  have hm := ht.isOptional_iff_marked
  cases h : t.isOptional with
  | true => exact checks_throw (.head (.misplaced (hm.1 h)))
  | false =>
    refine checks_pure_of_holds fun hd => ?_
    rw [hm.2 hd] at h
    cases h

namespace Description

section Lower

variable {read : Reading} {isDefined : String → Bool}

mutual

/-- **Lowering checks what is asked of the description**, as reading checks expressions. -/
theorem checks_lower (hc : ∀ path text, Checks isDefined [(path, .expression text)] (read path text))
    (hr : ∀ path text, (read path text).Yields fun c => Constraint.parse isDefined text = .ok c) (policy : Policy) :
    ∀ (d : Description) (path : Path), Checks isDefined (d.demands path) (d.lower read isDefined policy path)
  | expression text, path => by
    rw [lower, demands]
    exact (hc path text).bind_pure (hr path text)
  | constraint c, path => by
    rw [lower, demands]
    exact (checks_checkConstraint isDefined path c).bind_pure (yields_checkConstraint isDefined path c)
  | object fields own, path => by
    rw [lower, demands]
    exact (checks_lowerFields hc hr policy fields path []).bind_pure (yields_lowerFields hr policy fields path [])
  | array item, path => by
    rw [lower, demands]
    refine (checks_lower hc hr policy item path).bind (yields_lower hr policy item path) fun t ht => ?_
    exact (checks_checkElement ht path).bind_pure (yields_checkElement path t)
  | tuple items, path => by
    rw [lower, demands]
    exact (checks_lowerItems hc hr policy items path 0).bind_pure (yields_lowerItems hr policy items path 0)
  | compiled v, path => by
    rw [lower, demands]
    cases hv : v.definitions with
    | some defs => exact checks_throw (.head (.foreign (by rw [hv]; nofun)))
    | none => exact checks_pure_of_holds hv

theorem checks_lowerFields (hc : ∀ path text, Checks isDefined [(path, .expression text)] (read path text))
    (hr : ∀ path text, (read path text).Yields fun c => Constraint.parse isDefined text = .ok c) (policy : Policy) :
    ∀ (fields : List FieldDescription) (path : Path) (declared : List String),
      Checks isDefined (demandsFields path declared fields) (lowerFields read isDefined policy path declared fields)
  | [], path, declared => by
    rw [lowerFields, demandsFields]
    exact checks_pure []
  | ⟨name, d, optional⟩ :: rest, path, declared => by
    rw [lowerFields, demandsFields]
    refine (checks_lower hc hr policy d _).bind (yields_lower hr policy d _) fun t _ => ?_
    dsimp only
    -- the name is tested before the next fields are lowered
    rw [← List.singleton_append]
    split
    · rename_i hn
      have hm : name ∈ declared := by simpa using hn
      have hf : FirstFault isDefined [(path, .distinct declared name)] (.duplicateField path name) :=
        .head (.duplicate hm)
      have ht : Checks isDefined _ (throw (.duplicateField path name) : Lowering PUnit) := checks_throw hf
      exact ht.bind (yields_throw (P := fun _ => False) _) fun _ h => h.elim
    · rename_i hn
      have hm : name ∉ declared := by simpa using hn
      refine Checks.after (List.forall_mem_singleton.2 hm) ?_
      exact (checks_lowerFields hc hr policy rest path (declared ++ [name])).bind_pure
        (yields_lowerFields hr policy rest path (declared ++ [name]))

theorem checks_lowerItems (hc : ∀ path text, Checks isDefined [(path, .expression text)] (read path text))
    (hr : ∀ path text, (read path text).Yields fun c => Constraint.parse isDefined text = .ok c) (policy : Policy) :
    ∀ (items : List Description) (path : Path) (i : Nat),
      Checks isDefined (demandsItems path i items) (lowerItems read isDefined policy path i items)
  | [], path, i => by
    rw [lowerItems, demandsItems]
    exact checks_pure []
  | d :: rest, path, i => by
    rw [lowerItems, demandsItems]
    refine (checks_lower hc hr policy d _).bind (yields_lower hr policy d _) fun t ht => ?_
    rw [← List.singleton_append]
    refine (checks_checkElement ht _).bind (yields_checkElement _ t) fun _ _ => ?_
    exact (checks_lowerItems hc hr policy rest path (i + 1)).bind_pure (yields_lowerItems hr policy rest path (i + 1))

end

end Lower

end Description

/-- The names that are defined in a scope, if there is one. -/
def definedIn : Option Scope → String → Bool
  | none, _ => false
  | some s, name => s.names.contains name

/-- How expressions are read in a scope, if there is one. -/
def readingIn : Option Scope → Reading
  | none => readCached
  | some s => readScoped s.names.contains

namespace Description

theorem checks_lower_readingIn (scope : Option Scope) (policy : Policy) (d : Description) (path : Path) :
    Checks (definedIn scope) (d.demands path) (d.lower (readingIn scope) (definedIn scope) policy path) :=
  match scope with
  | none => checks_lower checks_readCached yields_readCached policy d path
  | some s => checks_lower (checks_readScoped s.names.contains) (yields_readScoped s.names.contains) policy d path

end Description

/-- **A compiler refuses a description with the error of its first fault.** -/
theorem Compiler.compile_eq_error_iff {c : Compiler} (hc : c.Reached) {d : Description} {e : SchemaError} :
    (c.compile d).1 = .error e ↔ FirstFault (fun _ => false) (d.demands []) e := by
  have hchecks := Description.checks_lower checks_readCached yields_readCached c.options.policy d []
  rw [← hchecks.error_iff hc.sound, compile_eq]
  cases ((d.lower readCached (fun _ => false) c.options.policy []).runFrom c.cache).1 with
  | error e' => exact ⟨fun h => by cases h; rfl, fun h => by cases h; rfl⟩
  | ok root => exact ⟨fun h => (nomatch h), fun h => (nomatch h)⟩

namespace Scope

variable {s : Scope} {options : Options} {e : SchemaError}

/-- What compilation asks of some definitions, in their order and each at the path of its name. -/
def demandsAll (ds : List (String × Description)) : List (Path × Demand) :=
  ds.flatMap fun d => d.2.demands [.key d.1]

theorem checks_lowerAll (isDefined : String → Bool) (policy : Policy) : ∀ (ds : List (String × Description)),
    Checks isDefined (demandsAll ds) (lowerAll isDefined policy ds)
  | [] => by
    rw [lowerAll]
    exact checks_pure []
  | (name, d) :: rest => by
    have hlower := Description.checks_lower (checks_readScoped isDefined) (yields_readScoped isDefined) policy d
      [.key name]
    rw [lowerAll]
    refine hlower.bind (Description.yields_lower (yields_readScoped isDefined) policy d _) fun _ _ => ?_
    exact (checks_lowerAll isDefined policy rest).bind_pure (yields_lowerAll rest)

/-- **A scope is refused with the error of the first fault in its definitions**, or for a circle if there is none. -/
theorem compile_eq_error_iff : s.compile options = .error e ↔
    FirstFault s.names.contains (demandsAll s.definitions) e ∨
      ∃ defs names, CompilesAll s.names.contains options.policy s.definitions defs ∧
        defs.unguardedCycle? = some names ∧ e = .unguardedCycle names := by
  have hok : ∀ defs, CompilesAll s.names.contains options.policy s.definitions defs ↔
      ((lowerAll s.names.contains options.policy s.definitions).runFrom []).1 = .ok defs := by
    refine fun defs => ⟨fun hd => ?_, fun hr => ?_⟩
    · obtain ⟨after, -, hr⟩ := returns_lowerAll hd [] Cache.sound_nil
      rw [hr]
    · exact (yields_lowerAll s.definitions [] Cache.sound_nil).2 defs hr
  have hchecks := checks_lowerAll s.names.contains options.policy s.definitions
  rw [← hchecks.error_iff Cache.sound_nil]
  simp only [hok]
  rw [compile_eq]
  cases ((lowerAll s.names.contains options.policy s.definitions).runFrom []).1 with
  | error e' => simp [bind, Except.bind]
  | ok defs =>
    cases hc : defs.unguardedCycle? with
    | none =>
      simp only [bind, Except.bind, hc, pure, Except.pure, reduceCtorEq, false_or, false_iff, Except.ok.injEq]
      rintro ⟨_, names, rfl, hn, -⟩
      rw [hc] at hn
      cases hn
    | some names =>
      simp only [bind, Except.bind, hc, throw, throwThe, MonadExceptOf.throw, reduceCtorEq, false_or, Except.ok.injEq,
        Except.error.injEq]
      constructor
      · rintro rfl
        exact ⟨defs, names, rfl, hc, rfl⟩
      · rintro ⟨_, names', rfl, hn, rfl⟩
        rw [Option.some.inj (hc.symm.trans hn)]

end Scope

namespace Description

/-- **Compilation refuses exactly the malformed descriptions, and reports the first fault.**  With or without a scope it
succeeds for the descriptions without faults; otherwise its error is that of the first demand that fails, in the order
of the parts and at the path of the part which the demand is about. -/
theorem lower_reports_first_fault (c : Compiler) (hc : c.Reached) (scope : Option Scope) (d : Description)
    (path : Path) :
    let result := ((d.lower (readingIn scope) (definedIn scope) c.options.policy path).runFrom c.cache).1
    ((∃ t, result = .ok t) ↔ d.WellFormed (definedIn scope)) ∧
      (∀ e, result = .error e ↔ FirstFault (definedIn scope) (d.demands path) e) ∧
      ∀ p demand, (p, demand) ∈ d.demands path ↔
        ∃ q part r, d.Part q part ∧ part.Asks r demand ∧ p = path ++ q ++ r := by
  intro result
  have hchecks := checks_lower_readingIn scope c.options.policy d path
  refine ⟨?_, fun e => hchecks.error_iff hc.sound, fun p demand => mem_demands_iff⟩
  rw [wellFormed_iff path]
  exact hchecks.ok_iff hc.sound

/-- Two fields of one name, the first with marked elements. -/
def twiceTagged : Description :=
  .object [⟨"tags", .array (.constraint (.optional (.kind .string))), false⟩,
    ⟨"tags", .constraint (.kind .boolean), false⟩] none

theorem lower_reports_first_fault_twiceTagged : ({} : Compiler).Reached ∧
    ((twiceTagged.lower readCached (fun _ => false) .allow []).runFrom []).1 =
      .error (.misplacedOptional [.key "tags"]) ∧ ¬twiceTagged.WellFormed (fun _ => false) := by
  obtain ⟨hok, herr, -⟩ := lower_reports_first_fault {} (.new {}) none twiceTagged []
  have hf : FirstFault (definedIn none) (twiceTagged.demands []) (.misplacedOptional [.key "tags"]) := by
    refine ⟨[([.key "tags"], .constraint (.optional (.kind .string)))], [.key "tags"], _, _, rfl, ?_,
      .misplaced (.constraint _)⟩
    exact List.forall_mem_singleton.2 ⟨rfl, nofun⟩
  have hr := (herr _).2 hf
  refine ⟨.new {}, hr, fun hw => ?_⟩
  obtain ⟨t, ht⟩ := hok.2 hw
  cases hr.symm.trans ht

end Description

end Assay
