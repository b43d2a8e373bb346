import Assay.Proofs.Caching
import Assay.Proofs.ScopeChanges
/-!
# Compiled schemas inside descriptions

A validator that was compiled outside any scope stands for its description wherever that may be written: at a hole of
any context, compiled outside scopes or in a definition of one (`Compiler.embedding_inlines`).  The description becomes
the same tree in every scope (`Description.Compiles.mono`), as it uses no name, although its expressions are then read
with the names of the scope in view.
-/
namespace Assay

open Lowering (BothSound)

namespace Compiler

variable {c : Compiler} {d : Description} {v : Validator}

/-- **A compiled validator lowers as its description does** in every context, whichever names are defined. -/
theorem Reached.lowersAlike_fill (hc : c.Reached) (h : (c.compile d).1 = .ok v) {read : Reading}
    {isDefined : String → Bool} (hr : Reading.Sound isDefined read) (context : Description.Context) :
      Description.LowersAlike BothSound Eq read read isDefined c.options.policy c.options.policy
        (context.fill (.compiled v)) (context.fill d) := by
  obtain ⟨root, rfl, hroot⟩ := hc.compiles h
  have hinlined : d.Compiles isDefined c.options.policy root := hroot.mono fun name hn => by cases hn
  have hembedded : (Description.compiled ⟨root, none, c.options.maxDepth⟩).Compiles isDefined c.options.policy root :=
    .compiled (v := ⟨root, none, c.options.maxDepth⟩) rfl
  have hhole := Description.lowersAlike_of_compiles hr hembedded hinlined (rfl : root = root)
  exact context.lowersAlike_fill (Tree.congruence_eq _) hr.alike hhole

/-- **Embedding a compiled validator is inlining its description.**  In every context, outside scopes and in each
definition of a scope, the two compile with the same error or to the same validators, so that these answer alike.
Outside scopes it does not matter what the compilers, of the same options, have compiled before. -/
theorem embedding_inlines (hc : c.Reached) (h : (c.compile d).1 = .ok v) (context : Description.Context) :
    (∀ c₁ c₂ : Compiler, c₁.Reached → c₂.Reached → c₁.options = c.options → c₂.options = c.options →
      (c₁.compile (context.fill (.compiled v))).1 = (c₂.compile (context.fill d)).1) ∧
    ∀ s : Scope, ∀ name ∈ s.names, (c.compileScope (s.redefine name (context.fill (.compiled v)))).1 =
      (c.compileScope (s.redefine name (context.fill d))).1 := by
  constructor
  · intro c₁ c₂ hc₁ hc₂ ho₁ ho₂
    have hfill := hc.lowersAlike_fill h sound_readCached context
    rw [← congrArg Options.policy ho₁] at hfill
    have hsame : SameResult _ (c₁.compile (context.fill (.compiled v))).1 (c₂.compile (context.fill d)).1 :=
      sameResult_compile hc₁ hc₂ (by rwa [ho₂, ← ho₁])
    refine SameResult.eq (hsame.imp ?_)
    rintro _ _ ⟨t, t', rfl, rfl, rfl⟩
    rw [ho₁, ho₂]
  · intro s name _
    rw [compileScope_eq, compileScope_eq]
    have halike := fun isDefined => s.lowersAlike_redefine (Tree.congruence_eq c.options.policy) name
      (hc.lowersAlike_fill h (sound_readScoped isDefined) context)
    have hsame := Scope.sameResult_compile (fun t t' ht => by rw [ht]) (halike _)
    exact SameResult.eq (hsame.imp fun _ _ => Scope.CompiledAlike.eq)

/-- A string that need not be there. -/
def nick : Description := .expression "string?"

def nickValidator : Validator := ⟨.leaf (.optional (.kind .string)), none, 100⟩

/-- Arrays of them, which cannot be compiled. -/
def nicks : Scope where
  definitions := [("Nicks", .array nick)]

/-- The marker of the compiled validator makes a field optional, and is refused in an array, as that of the text is. -/
theorem embedding_inlines_nick : (({} : Compiler).compile nick).1 = .ok nickValidator ∧
    (({} : Compiler).compile (.object [⟨"nick", .compiled nickValidator, false⟩] none)).1 =
      (({} : Compiler).compile (.object [⟨"nick", nick, false⟩] none)).1 ∧
    (({} : Compiler).compile (.object [⟨"nick", nick, false⟩] none)).1 =
      .ok ⟨.object [⟨"nick", true, .leaf (.kind .string)⟩] .allow, none, 100⟩ ∧
    (({} : Compiler).compileScope (nicks.redefine "Nicks" (.array (.compiled nickValidator)))).1 =
      (({} : Compiler).compileScope nicks).1 ∧
    ∃ path, (({} : Compiler).compileScope nicks).1 = .error (.misplacedOptional path) := by
  have hspells : Spells "string?" [.identifier "string", .question] :=
    (Spells.name (n := "string") (by decide)).optional
  have hparse : ∀ isDefined, Constraint.parse isDefined "string?" = .ok (.optional (.kind .string)) := fun _ =>
    Constraint.parse_of_spells hspells (.optional (.terms (.one (.operand (.atom .anyString)))))
  have hnick : (({} : Compiler).compile nick).1 = .ok nickValidator :=
    (Reached.new {}).compile_eq_ok (.expression (hparse _))
  have hfield := (embedding_inlines (.new {}) hnick (.field [] "nick" .hole false [] none)).1 {} {} (.new {}) (.new {})
    rfl rfl
  have hitem := (embedding_inlines (.new {}) hnick (.item .hole)).2 nicks "Nicks" (by decide)
  have hcompiled : (({} : Compiler).compile (.object [⟨"nick", nick, false⟩] none)).1 =
      .ok ⟨.object [⟨"nick", true, .leaf (.kind .string)⟩] .allow, none, 100⟩ :=
    (Reached.new {}).compile_eq_ok (.object (.cons (.expression (hparse _)) List.not_mem_nil (.nil ["nick"])))
  refine ⟨hnick, hfield, hcompiled, hitem, [.key "Nicks"], ?_⟩
  rw [compileScope_eq, Scope.compile_eq]
  simp only [nicks, Scope.lowerAll, nick, Description.lower, Lowering.runFrom_bind, Lowering.runFrom_pure, readScoped,
    hparse]
  rfl

end Compiler

end Assay
