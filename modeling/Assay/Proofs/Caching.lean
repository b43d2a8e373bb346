import Assay.Proofs.Matching
import Assay.Proofs.Places
import Assay.Proofs.RoundTrip
import Mathlib.Data.Finset.Card
/-!
# A cache that changes no answer

Two compilations agree when their steps do, which return the same and keep the two caches in a relation
(`Lowering.Agrees`).  Compiling with a cache agrees with compiling without one, where each expression is parsed anew and
noted in a log, and compiling a scope leaves the cache alone.  So after any history the cache holds what was parsed
outside scopes, each expression once and with its meaning, and no result depends on it (`Compiler.cache_transparent`).
-/
namespace Assay

/-- The expressions in the cache. -/
def Cache.texts (cache : Cache) : List String := cache.map (·.1)

namespace Lowering

variable {α : Type} {R : Cache → Cache → Prop}

/-- **From related caches the steps return the same and leave related caches.** -/
def Agrees (R : Cache → Cache → Prop) (step step' : Lowering α) : Prop :=
  ∀ before before', R before before' → (step.runFrom before).1 = (step'.runFrom before').1 ∧
    R (step.runFrom before).2 (step'.runFrom before').2

theorem agrees_iff_matches {step step' : Lowering α} : Agrees R step step' ↔ Matches R Eq step step' := by
  refine forall₃_congr fun before before' _ => and_congr_left fun _ => ⟨fun h => ?_, SameResult.eq⟩
  rw [h]
  exact .refl (fun _ => rfl) _

/-- A step that agrees with itself whatever the caches are is idle: its result and its change are those of one run. -/
theorem runFrom_eq_of_agrees {step : Lowering α} (h : ∀ R, Agrees R step step) (before : Cache) :
    step.runFrom before = ((step.runFrom []).1, before) := by
  obtain ⟨he, hr, -⟩ := h (fun b b' => b = before ∧ b' = []) before [] ⟨rfl, rfl⟩
  exact Prod.ext he hr

end Lowering

open Lowering (Idle Agrees agrees_iff_matches idle_pure idle_throw)

/-- **Lowering agrees when reading does.** -/
theorem Description.agrees_lower {R : Cache → Cache → Prop} {read read' : Reading} {isDefined : String → Bool}
    {policy : Policy} (hr : ∀ path text, Agrees R (read path text) (read' path text)) (d : Description) (path : Path) :
      Agrees R (d.lower read isDefined policy path) (d.lower read' isDefined policy path) :=
  agrees_iff_matches.2
    (d.lowersAlike_self (Tree.congruence_eq policy) (fun path text => agrees_iff_matches.1 (hr path text)) path)

/-- Reading that knows of no cache: every expression is parsed, and each success is noted at the end of the log. -/
def readNoted : Reading := fun path text =>
  match Constraint.parse (fun _ => false) text with
  | .ok c => do
    modify (· ++ [(text, c)])
    return c
  | .error e => throw (.constraint path e)

theorem runFrom_readNoted (path : Path) (text : String) (log : Cache) : (readNoted path text).runFrom log =
    match Constraint.parse (fun _ => false) text with
      | .ok c => (.ok c, log ++ [(text, c)])
      | .error e => (.error (.constraint path e), log) := by
  unfold readNoted
  cases Constraint.parse (fun _ => false) text <;> rfl

/-- **The cache keeps the meanings of some expressions**, each expression once. -/
structure Cache.Keeps (texts : List String) (cache : Cache) : Prop where
  sound : cache.Sound
  nodup : cache.texts.Nodup
  mem_iff : ∀ text, text ∈ cache.texts ↔ text ∈ texts

namespace Cache

theorem texts_append (cache cache' : Cache) : (cache ++ cache').texts = cache.texts ++ cache'.texts := List.map_append

namespace Keeps

variable {texts : List String} {cache : Cache} {text : String} {c : Constraint}

theorem nil : Keeps [] [] := ⟨sound_nil, List.nodup_nil, fun _ => Iff.rfl⟩

theorem parse_of_mem (h : cache.Keeps texts) {e : String × Constraint} (he : e ∈ cache) :
    Constraint.parse (fun _ => false) e.1 = .ok e.2 :=
  h.sound e.1 e.2 (lookup_of_mem h.nodup he)

/-- An expression that is found was kept before. -/
theorem found (h : cache.Keeps texts) (hl : cache.lookup text = some c) : cache.Keeps (texts ++ [text]) := by
  have hm : text ∈ cache.texts := List.mem_map.2 ⟨(text, c), mem_of_lookup hl, rfl⟩
  refine ⟨h.sound, h.nodup, fun t => ?_⟩
  rw [List.mem_append, ← h.mem_iff]
  refine ⟨Or.inl, Or.rec id fun ht => ?_⟩
  rwa [List.mem_singleton.1 ht]

/-- An expression that is not found is kept from then on. -/
theorem read (h : cache.Keeps texts) (hl : cache.lookup text = none)
    (hp : Constraint.parse (fun _ => false) text = .ok c) : Keeps (texts ++ [text]) ((text, c) :: cache) := by
  have hm : text ∉ cache.texts := fun hm => by
    obtain ⟨e, he, rfl⟩ := List.mem_map.1 hm
    exact absurd (List.lookup_eq_none_iff.1 hl e he) (by simp)
  refine ⟨h.sound.cons hp, List.nodup_cons.2 ⟨hm, h.nodup⟩, fun t => ?_⟩
  rw [List.mem_append, List.mem_singleton, ← h.mem_iff, or_comm]
  exact List.mem_cons

theorem length_eq (h : cache.Keeps texts) : cache.length = texts.toFinset.card := by
  have he : cache.texts.toFinset = texts.toFinset := by
    ext text
    rw [List.mem_toFinset, List.mem_toFinset, h.mem_iff]
  rw [← he, List.toFinset_card_of_nodup h.nodup]
  exact (List.length_map _).symm

end Keeps

end Cache

/-- **Reading from the cache and reading anew return the same**, and the cache goes on keeping what the log notes. -/
theorem agrees_readCached (base : List String) (path : Path) (text : String) :
    Agrees (fun cache log => cache.Keeps (base ++ log.texts)) (readCached path text) (readNoted path text) := by
  intro cache log h
  have hnoted : ∀ c, base ++ Cache.texts (log ++ [(text, c)]) = base ++ log.texts ++ [text] := fun c => by
    rw [Cache.texts_append, List.append_assoc]
    rfl
  rw [runFrom_readCached, runFrom_readNoted]
  cases hl : cache.lookup text with
  | some c =>
    rw [h.sound text c hl]
    refine ⟨rfl, ?_⟩
    dsimp only
    rw [hnoted]
    exact h.found hl
  | none =>
    cases hp : Constraint.parse (fun _ => false) text with
    | error e => exact ⟨rfl, h⟩
    | ok c =>
      refine ⟨rfl, ?_⟩
      dsimp only
      rw [hnoted]
      exact h.read hl hp

namespace Lowering

variable {α β : Type} {texts texts' : List String}

/-- **The step notes the first of some expressions**, in their order and with their meanings, and all of them if it
succeeds. -/
def Notes (step : Lowering α) (texts : List String) : Prop :=
  ∀ log, ∃ noted : Cache, (step.runFrom log).2 = log ++ noted ∧
    (∀ e ∈ noted, Constraint.parse (fun _ => false) e.1 = .ok e.2) ∧ noted.texts <+: texts ∧
      ∀ a, (step.runFrom log).1 = .ok a → noted.texts = texts

theorem Idle.notes {step : Lowering α} (h : step.Idle) : step.Notes [] := by
  obtain ⟨result, hr⟩ := h
  intro log
  refine ⟨[], ?_, nofun, List.nil_prefix, fun _ _ => rfl⟩
  rw [hr, List.append_nil]

theorem notes_throw (e : SchemaError) (texts : List String) : (throw e : Lowering α).Notes texts :=
  fun log => ⟨[], (List.append_nil log).symm, nofun, List.nil_prefix, nofun⟩

theorem Notes.bind {step : Lowering α} {next : α → Lowering β} (h : step.Notes texts)
    (hn : ∀ a, (next a).Notes texts') : (step >>= next).Notes (texts ++ texts') := by
  intro log
  obtain ⟨noted, hlog, hp, hpre, hall⟩ := h log
  rw [runFrom_bind]
  generalize step.runFrom log = out at hlog hall ⊢
  obtain ⟨result, between⟩ := out
  cases result with
  | error e => exact ⟨noted, hlog, hp, hpre.trans (List.prefix_append texts texts'), nofun⟩
  | ok a =>
    obtain rfl : between = log ++ noted := hlog
    obtain ⟨noted', hlog', hp', hpre', hall'⟩ := hn a (log ++ noted)
    have he : noted.texts = texts := hall a rfl
    refine ⟨noted ++ noted', ?_, ?_, ?_, fun b hb => ?_⟩
    · rw [hlog', List.append_assoc]
    · intro e hm
      exact (List.mem_append.1 hm).elim (hp e) (hp' e)
    · rw [Cache.texts_append, he]
      exact (List.prefix_append_right_inj texts).2 hpre'
    · rw [Cache.texts_append, he, hall' b hb]

/-- A step that notes nothing after one that notes. -/
theorem Notes.bind_idle {step : Lowering α} {next : α → Lowering β} (h : step.Notes texts) (hn : ∀ a, (next a).Idle) :
    (step >>= next).Notes texts := by
  have hb := h.bind fun a => (hn a).notes
  rwa [List.append_nil] at hb

end Lowering

open Lowering (notes_throw)

theorem notes_readNoted (path : Path) (text : String) : (readNoted path text).Notes [text] := by
  intro log
  rw [runFrom_readNoted]
  cases hp : Constraint.parse (fun _ => false) text with
  | error e => exact ⟨[], (List.append_nil log).symm, nofun, List.nil_prefix, nofun⟩
  | ok c =>
    refine ⟨[(text, c)], rfl, ?_, List.prefix_rfl, fun _ _ => rfl⟩
    exact List.forall_mem_singleton.2 hp

namespace Description

mutual

/-- The expressions in a description, from its first part to its last. -/
def texts : Description → List String
  | expression text => [text]
  | constraint _ => []
  | object fields _ => textsFields fields
  | array item => texts item
  | tuple items => textsEach items
  | compiled _ => []

def textsFields : List FieldDescription → List String
  | [] => []
  | ⟨_, d, _⟩ :: fields => texts d ++ textsFields fields

def textsEach : List Description → List String
  | [] => []
  | d :: items => texts d ++ textsEach items

end

/-- The expressions of a description that its compilation parses, if it finds none in a cache. -/
def parsed (policy : Policy) (d : Description) : List String :=
  ((d.lower readNoted (fun _ => false) policy []).runFrom []).2.texts

section Notes

variable {isDefined : String → Bool} {policy : Policy}

mutual

/-- **Lowering parses the expressions of the description in their order**, as far as it comes. -/
theorem notes_lower : ∀ (d : Description) (path : Path), (d.lower readNoted isDefined policy path).Notes d.texts
  | expression text, path => by
    rw [lower]
    exact (notes_readNoted path text).bind_idle fun _ => idle_pure _
  | constraint c, path => by
    rw [lower]
    exact ((idle_checkConstraint isDefined path c).bind fun _ => idle_pure _).notes
  | object fields own, path => by
    rw [lower]
    exact (notes_lowerFields fields path []).bind_idle fun _ => idle_pure _
  | array item, path => by
    rw [lower]
    exact (notes_lower item path).bind_idle fun t => (idle_checkElement path t).bind fun _ => idle_pure _
  | tuple items, path => by
    rw [lower]
    exact (notes_lowerItems items path 0).bind_idle fun _ => idle_pure _
  | compiled v, path => by
    rw [lower]
    cases v.definitions with
    | some _ => exact (idle_throw _).notes
    | none => exact (idle_pure _).notes

theorem notes_lowerFields : ∀ (fields : List FieldDescription) (path : Path) (declared : List String),
    (lowerFields readNoted isDefined policy path declared fields).Notes (textsFields fields)
  | [], path, declared => by
    rw [lowerFields]
    exact (idle_pure _).notes
  | ⟨name, d, optional⟩ :: rest, path, declared => by
    rw [lowerFields]
    refine (notes_lower d (path.push (.key name))).bind fun t => ?_
    dsimp only
    split
    · exact notes_throw _ _
    · exact (notes_lowerFields rest path (declared ++ [name])).bind_idle fun _ => idle_pure _

theorem notes_lowerItems : ∀ (items : List Description) (path : Path) (i : Nat),
    (lowerItems readNoted isDefined policy path i items).Notes (textsEach items)
  | [], path, i => by
    rw [lowerItems]
    exact (idle_pure _).notes
  | d :: rest, path, i => by
    rw [lowerItems]
    refine (notes_lower d (path.push (.index i))).bind fun t => ?_
    refine (idle_checkElement _ t).notes.bind fun _ => ?_
    exact (notes_lowerItems rest path (i + 1)).bind_idle fun _ => idle_pure _

end

end Notes

/-- **What is parsed**: the first expressions of the description, each with a meaning, and all of them if the
description becomes a tree. -/
theorem parsed_prefix (policy : Policy) (d : Description) : d.parsed policy <+: d.texts ∧
    (∀ text ∈ d.parsed policy, ∃ c, Constraint.parse (fun _ => false) text = .ok c) ∧
      ∀ t, ((d.lower readNoted (fun _ => false) policy []).runFrom []).1 = .ok t → d.parsed policy = d.texts := by
  have hnotes : (d.lower readNoted (fun _ => false) policy []).Notes d.texts := notes_lower d []
  obtain ⟨noted, hlog, hp, hpre, hall⟩ := hnotes []
  have he : d.parsed policy = noted.texts := congrArg Cache.texts hlog
  rw [he]
  refine ⟨hpre, fun text hm => ?_, hall⟩
  obtain ⟨e, hn, rfl⟩ := List.mem_map.1 hm
  exact ⟨e.2, hp e hn⟩

end Description

namespace Scope

/-- A scope is lowered without the cache. -/
theorem agrees_lowerAll (R : Cache → Cache → Prop) (isDefined : String → Bool) (policy : Policy)
    (ds : List (String × Description)) : Agrees R (lowerAll isDefined policy ds) (lowerAll isDefined policy ds) := by
  have hself : LowersAlike R Eq isDefined policy policy ds ds := lowersAlike_self (Tree.congruence_eq policy) ds
  exact agrees_iff_matches.2 ((matches_lowerAll hself).imp fun _ _ => Definitions.Rel.eq)

end Scope

namespace Compiler

/-- **A scope compiles on a compiler as it does with its options**, and leaves it as it is. -/
theorem compileScope_eq (c : Compiler) (s : Scope) : c.compileScope s = (s.compile c.options, c) := by
  have hr := Lowering.runFrom_eq_of_agrees
    (fun R => Scope.agrees_lowerAll R s.names.contains c.options.policy s.definitions) c.cache
  unfold Lowering.runFrom at hr
  rw [compileScope, hr]
  rfl

/-- What a compiler can be asked to compile. -/
inductive Request
  | description (d : Description)
  | scope (s : Scope)

/-- The expressions that a request has parsed outside scopes, if none is found in a cache. -/
def Request.parsed (policy : Policy) : Request → List String
  | .description d => d.parsed policy
  | .scope _ => []

/-- The compiler after a request, whether that succeeds or fails. -/
def perform (c : Compiler) : Request → Compiler
  | .description d => (c.compile d).2
  | .scope s => (c.compileScope s).2

def after (c : Compiler) (requests : List Request) : Compiler := requests.foldl perform c

section History

variable {c : Compiler} {texts : List String}

/-- **What a compilation returns and keeps**, in terms of the log of one without a cache. -/
theorem compile_of_keeps (h : c.cache.Keeps texts) (d : Description) :
    (c.compile d).1 = ((d.lower readNoted (fun _ => false) c.options.policy []).runFrom []).1.map
        (fun root => ⟨root, none, c.options.maxDepth⟩) ∧
      (c.compile d).2.cache.Keeps (texts ++ d.parsed c.options.policy) := by
  have hagrees : Agrees (fun cache log => cache.Keeps (texts ++ log.texts))
      (d.lower readCached (fun _ => false) c.options.policy [])
      (d.lower readNoted (fun _ => false) c.options.policy []) :=
    Description.agrees_lower (agrees_readCached texts) d []
  have hbefore : c.cache.Keeps (texts ++ Cache.texts []) := (List.append_nil texts).symm ▸ h
  obtain ⟨he, hr⟩ := hagrees c.cache [] hbefore
  rw [compile_eq, he]
  exact ⟨rfl, hr⟩

/-- **One request more.** -/
theorem keeps_perform (h : c.cache.Keeps texts) (request : Request) :
    (c.perform request).options = c.options ∧
      (c.perform request).cache.Keeps (texts ++ request.parsed c.options.policy) := by
  cases request with
  | description d => exact ⟨rfl, (compile_of_keeps h d).2⟩
  | scope s =>
    rw [perform, compileScope_eq, Request.parsed, List.append_nil]
    exact ⟨rfl, h⟩

/-- **A history of requests.** -/
theorem keeps_after : ∀ (requests : List Request) {c : Compiler} {texts : List String}, c.cache.Keeps texts →
    (c.after requests).options = c.options ∧
      (c.after requests).cache.Keeps (texts ++ requests.flatMap (Request.parsed c.options.policy))
  | [], c, texts, h => by
    rw [List.flatMap_nil, List.append_nil]
    exact ⟨rfl, h⟩
  | request :: requests, c, texts, h => by
    obtain ⟨ho, hk⟩ := keeps_perform h request
    obtain ⟨ho', hk'⟩ := keeps_after requests hk
    rw [ho, List.append_assoc] at hk'
    rw [List.flatMap_cons]
    exact ⟨ho'.trans ho, hk'⟩

end History

/-- **The cache of expressions is transparent.**  After any history of compilations, successful or not, it holds the
meanings of the expressions that were parsed outside scopes, and as many as these are; no request makes it smaller, and
the next result is that of a new compiler.  What a description parses are the first of its expressions, up to where its
compilation fails. -/
theorem cache_transparent (options : Options) (requests : List Request) :
    let c := after { options } requests
    (∀ e ∈ c.cache, Constraint.parse (fun _ => false) e.1 = .ok e.2) ∧
      c.cachedExpressions = (requests.flatMap (Request.parsed options.policy)).toFinset.card ∧
      (∀ request, c.cachedExpressions ≤ (c.perform request).cachedExpressions) ∧
      (∀ d, (c.compile d).1 = (Compiler.compile { options } d).1) ∧
      (∀ s, (c.compileScope s).1 = s.compile options) ∧
      ∀ d, d.parsed options.policy <+: d.texts ∧
        (∀ text ∈ d.parsed options.policy, ∃ n, Constraint.parse (fun _ => false) text = .ok n) ∧
        ∀ v, (c.compile d).1 = .ok v → d.parsed options.policy = d.texts := by
  intro c
  have hnew : ({ options } : Compiler).cache.Keeps [] := .nil
  obtain ⟨ho, h⟩ : c.options = options ∧ c.cache.Keeps (requests.flatMap (Request.parsed options.policy)) :=
    keeps_after requests hnew
  have hresult : ∀ d, (c.compile d).1 = ((d.lower readNoted (fun _ => false) options.policy []).runFrom []).1.map
      (fun root => ⟨root, none, options.maxDepth⟩) := fun d => ho ▸ (compile_of_keeps h d).1
  refine ⟨fun e he => h.parse_of_mem he, h.length_eq, fun request => ?_, fun d => ?_, fun s => ?_, fun d => ?_⟩
  · have hmore := (keeps_perform h request).2
    rw [cachedExpressions, cachedExpressions, h.length_eq, hmore.length_eq]
    refine Finset.card_le_card fun text ht => ?_
    rw [List.mem_toFinset] at ht ⊢
    exact List.mem_append_left _ ht
  · exact (hresult d).trans (compile_of_keeps hnew d).1.symm
  · rw [compileScope_eq, ho]
  · obtain ⟨hpre, hparse, hall⟩ := d.parsed_prefix options.policy
    refine ⟨hpre, hparse, fun v hv => ?_⟩
    rw [hresult] at hv
    revert hv hall
    cases ((d.lower readNoted (fun _ => false) options.policy []).runFrom []).1 with
    | error e => exact fun _ hv => nomatch hv
    | ok root => exact fun hall _ => hall root rfl

/-- A record whose second field has no expression, two kinds, and a scope with an expression of its own. -/
def history : List Request :=
  [.description (.object [⟨"a", .expression "string", false⟩, ⟨"b", .expression "", false⟩,
      ⟨"c", .expression "boolean", false⟩] none),
    .description (.tuple [.expression "string", .expression "number"]),
    .scope { definitions := [("Key", .expression "string.uuid")] }]

/-- The record leaves the expression before its mistake, and the scope leaves none. -/
theorem cache_transparent_history : (after {} history).cachedExpressions = 2 ∧
    ("string", .kind .string) ∈ (after {} history).cache ∧
    Constraint.parse (fun _ => false) "string" = .ok (.kind .string) := by
  have hstring : Constraint.parse (fun _ => false) "string" = .ok (.kind .string) :=
    Constraint.parse_of_spells (.name (by decide)) (.required (.terms (.one (.operand (.atom .anyString)))))
  have hnumber : Constraint.parse (fun _ => false) "number" = .ok (.kind .number) :=
    Constraint.parse_of_spells (.name (by decide)) (.required (.terms (.one (.operand (.atom .anyNumber)))))
  have hempty : Constraint.parse (fun _ => false) "" = .error .empty := by
    rw [Constraint.parse, show Token.ofString "" = .ok [] from Token.scan_nil 0]
    rfl
  have hparsed : history.flatMap (Request.parsed Policy.allow) = ["string", "string", "number"] := by
    simp only [history, List.flatMap_cons, Request.parsed, Description.parsed, Description.lower,
      Description.lowerFields, Description.lowerItems, Lowering.runFrom_bind, Lowering.runFrom_pure, runFrom_readNoted,
      hstring, hnumber, hempty, List.contains_nil, Bool.false_eq_true, if_false]
    rfl
  have h := cache_transparent {} history
  have hkeeps := (keeps_after history (c := {}) .nil).2
  rw [hparsed] at hkeeps
  obtain ⟨e, he, hname⟩ := List.mem_map.1 ((hkeeps.mem_iff "string").2 List.mem_cons_self)
  have hmeaning := h.1 e he
  rw [hname, hstring] at hmeaning
  have hmem : ("string", .kind .string) ∈ (after {} history).cache := by
    rwa [← hname, Except.ok.inj hmeaning]
  refine ⟨h.2.1.trans ?_, hmem, h.1 _ hmem⟩
  rw [hparsed]
  rfl

end Compiler

end Assay
