import Assay.Schema.Scope
/-!
# Steps of a compilation

A compilation that succeeds succeeded at every step (`Lowering.bind_eq_ok`), and a scope that compiles holds a tree for
each of its names, in their order, whatever the depth limit is (`compile_eq_ok_iff`, `names_compile`).
-/
namespace Assay

namespace Lowering

variable {α β : Type}

/-- The result of a step of compilation and the cache that it leaves. -/
def runFrom (step : Lowering α) (before : Cache) : Except SchemaError α × Cache := step.run.run before

theorem runFrom_bind (step : Lowering α) (next : α → Lowering β) (before : Cache) :
    (step >>= next).runFrom before = match step.runFrom before with
      | (.ok a, between) => (next a).runFrom between
      | (.error e, after) => (.error e, after) := by
  unfold runFrom ExceptT.run StateT.run
  simp only [bind, ExceptT.bind, ExceptT.mk, StateT.bind, ExceptT.bindCont]
  cases step before with
  | mk result between => cases result <;> rfl

theorem runFrom_pure (a : α) (before : Cache) : (pure a : Lowering α).runFrom before = (.ok a, before) := rfl

theorem pure_eq_ok {a b : α} {before after : Cache} :
    (pure a : Lowering α).runFrom before = (.ok b, after) ↔ a = b ∧ before = after := by
  rw [runFrom_pure]
  simp

/-- **A sequence of two steps succeeds when both do**, the second from the cache that the first leaves. -/
theorem bind_eq_ok {step : Lowering α} {next : α → Lowering β} {before after : Cache} {b : β} :
    (step >>= next).runFrom before = (.ok b, after) ↔
      ∃ a between, step.runFrom before = (.ok a, between) ∧ (next a).runFrom between = (.ok b, after) := by
  rw [runFrom_bind]
  cases step.runFrom before with
  | mk result between =>
    cases result with
    | error e => simp
    | ok a =>
      constructor
      · intro h
        exact ⟨a, between, rfl, h⟩
      · rintro ⟨_, _, ha, h⟩
        cases ha
        exact h

end Lowering

namespace Scope

/-- Every definition becomes a tree under its name. -/
theorem names_of_lowerAll_eq_ok {isDefined : String → Bool} {policy : Policy} :
    ∀ (ds : List (String × Description)) {before after : Cache} {defs : Definitions},
      (lowerAll isDefined policy ds).runFrom before = (.ok defs, after) → defs.map (·.1) = ds.map (·.1)
  | [], _, _, _, h => by
    rw [lowerAll, Lowering.pure_eq_ok] at h
    rw [← h.1]
    rfl
  | (name, d) :: rest, before, after, defs, h => by
    rw [lowerAll] at h
    obtain ⟨t, between, -, h⟩ := Lowering.bind_eq_ok.1 h
    obtain ⟨trees, between', ht, h⟩ := Lowering.bind_eq_ok.1 h
    obtain ⟨rfl, -⟩ := Lowering.pure_eq_ok.1 h
    rw [List.map_cons, List.map_cons, names_of_lowerAll_eq_ok rest ht]

theorem compile_eq (s : Scope) (options : Options) : s.compile options = (do
    let defs ← ((lowerAll s.names.contains options.policy s.definitions).runFrom []).1
    match defs.unguardedCycle? with
    | some names => throw (.unguardedCycle names)
    | none => return ⟨defs, options.maxDepth⟩) := rfl

/-- **When a scope compiles**: every description lowers, and no definition follows itself unguarded. -/
theorem compile_eq_ok_iff {s : Scope} {options : Options} {compiled : CompiledScope} :
    s.compile options = .ok compiled ↔
      ((lowerAll s.names.contains options.policy s.definitions).runFrom []).1 = .ok compiled.definitions ∧
        compiled.definitions.unguardedCycle? = none ∧ compiled.maxDepth = options.maxDepth := by
  rw [compile_eq]
  cases h : ((lowerAll s.names.contains options.policy s.definitions).runFrom []).1 with
  | error e => simp [bind, Except.bind]
  | ok defs =>
    obtain ⟨definitions, maxDepth⟩ := compiled
    cases hc : defs.unguardedCycle? with
    | some names =>
      simp only [bind, Except.bind, hc, throw, throwThe, MonadExceptOf.throw, Except.ok.injEq, reduceCtorEq, false_iff]
      rintro ⟨rfl, hn, -⟩
      rw [hc] at hn
      cases hn
    | none =>
      simp only [bind, Except.bind, hc, pure, Except.pure, Except.ok.injEq, CompiledScope.mk.injEq]
      constructor
      · rintro ⟨rfl, rfl⟩
        exact ⟨rfl, hc, rfl⟩
      · rintro ⟨rfl, -, rfl⟩
        exact ⟨rfl, rfl⟩

theorem maxDepth_compile {s : Scope} {options : Options} {compiled : CompiledScope}
    (h : s.compile options = .ok compiled) : compiled.maxDepth = options.maxDepth := (compile_eq_ok_iff.1 h).2.2

theorem names_compile {s : Scope} {options : Options} {compiled : CompiledScope}
    (h : s.compile options = .ok compiled) : compiled.names = s.names :=
  names_of_lowerAll_eq_ok s.definitions (Prod.ext (compile_eq_ok_iff.1 h).1 rfl)

end Scope

end Assay
