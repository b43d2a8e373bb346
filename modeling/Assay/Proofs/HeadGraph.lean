import Assay.Proofs.Acyclic
import Mathlib.Data.List.Chain
/-!
# The graph of heads

One name leads to another when the definition of the first is a leaf that refers to the second at its root, below no
more than unions and a marker (`Definitions.Leads`).  The open names of the search are a path of this graph, so that the
chain it returns is a circle of it without another repetition (`circle_of_visit`); and a ranking leaves no circle.  So
the search finds a circle exactly when there is one (`unguardedCycle?_finds_circle`).
-/
namespace Assay

namespace Constraint

/-- The constraint refers to the name at its root, below no more than unions and optional markers. -/
inductive Leads : Constraint → String → Prop
  | reference (name : String) : Leads (reference name) name
  | union {cs : List Constraint} {c : Constraint} {name : String} : c ∈ cs → Leads c name → Leads (union cs) name
  | optional {c : Constraint} {name : String} : Leads c name → Leads (optional c) name

mutual

/-- **The heads of a constraint are the names that it leads to.** -/
theorem mem_heads_iff {name : String} : ∀ (c : Constraint), name ∈ c.heads ↔ c.Leads name
  | reference n => by
    rw [heads, List.mem_singleton]
    constructor
    · rintro rfl
      exact .reference name
    · rintro ⟨⟩
      rfl
  | union cs => by
    rw [heads, mem_headsAll_iff cs]
    constructor
    · rintro ⟨c, hc, h⟩
      exact .union hc h
    · rintro (_ | ⟨hc, h⟩)
      exact ⟨_, hc, h⟩
  | optional c => by
    rw [heads, mem_heads_iff c]
    constructor
    · exact .optional
    · rintro (_ | _ | h)
      exact h
  | kind _ | range _ _ _ | format _ | literal _ | array _ | tuple _ => by
    simp only [heads, List.not_mem_nil, false_iff]
    rintro ⟨⟩

theorem mem_headsAll_iff {name : String} : ∀ (cs : List Constraint), name ∈ headsAll cs ↔ ∃ c ∈ cs, c.Leads name
  | [] => by simp [headsAll]
  | c :: cs => by
    rw [headsAll, List.mem_append, mem_heads_iff c, mem_headsAll_iff cs, List.exists_mem_cons_iff]

end

end Constraint

namespace Definitions

variable {defs : Definitions}

/-- **An edge of the graph of heads**: the definition of the first name is a leaf that leads to the second. -/
def Leads (defs : Definitions) (a b : String) : Prop := ∃ c, defs.lookup a = some (.leaf c) ∧ c.Leads b

theorem leads_iff {a b : String} : defs.Leads a b ↔ b ∈ defs.headsOf a := by
  unfold Leads headsOf
  cases defs.lookup a with
  | none => simp
  | some t =>
    cases t with
    | leaf c => simp [Tree.heads, Constraint.mem_heads_iff]
    | _ => simp [Tree.heads]

/-- An edge between two names that are defined. -/
def LeadsWithin (defs : Definitions) (a b : String) : Prop :=
  a ∈ defs.map (·.1) ∧ b ∈ defs.map (·.1) ∧ defs.Leads a b

theorem Leads.mem_names {a b : String} (h : defs.Leads a b) : a ∈ defs.map (·.1) :=
  mem_names_of_mem_headsOf (leads_iff.1 h)

/-- **A circle of the graph of heads**, written from one of its names back to this name. -/
structure Circle (defs : Definitions) (names : List String) : Prop where
  two_le : 2 ≤ names.length
  ends : names.head? = names.getLast?
  nodup : names.dropLast.Nodup
  leads : names.IsChain defs.Leads

/-- A path that comes back to one of its names closes a circle there. -/
theorem circle_of_mem {stack : List String} {name : String} (hn : stack.Nodup)
    (hp : (stack ++ [name]).IsChain defs.Leads) (hm : name ∈ stack) :
      Circle defs (stack.dropWhile (· != name) ++ [name]) := by
  obtain ⟨before, after, rfl, hb⟩ := List.eq_append_cons_of_mem hm
  have hd : (before ++ name :: after).dropWhile (· != name) = name :: after := by
    have hpos : ∀ n ∈ before, (n != name) = true := by
      intro n hn
      have hne : n ≠ name := fun he => hb (he ▸ hn)
      simpa using hne
    rw [List.dropWhile_append_of_pos hpos]
    simp
  rw [hd]
  rw [List.append_assoc] at hp
  refine ⟨by simp, ?_, ?_, hp.right_of_append⟩
  · rw [List.getLast?_concat]
    rfl
  · rw [List.dropLast_concat]
    exact (List.nodup_append.1 hn).2.1

theorem exists_of_foldlM_eq_error {step : List String → String → Except (List String) (List String)}
    {chain : List String} : ∀ (names : List String) {finished : List String},
      names.foldlM step finished = .error chain → ∃ name ∈ names, ∃ before, step before name = .error chain
  | [], _, h => by cases h
  | name :: names, finished, h => by
    rw [List.foldlM_cons] at h
    cases hs : step finished name with
    | error chain' =>
      rw [hs] at h
      cases h
      exact ⟨name, List.mem_cons_self, finished, hs⟩
    | ok between =>
      rw [hs] at h
      obtain ⟨n, hn, before, he⟩ := exists_of_foldlM_eq_error names h
      exact ⟨n, List.mem_cons_of_mem _ hn, before, he⟩

/-- **A visit that closes a chain returns a circle**, by induction on the depth that is left: the open names are a path
without repetitions that leads to the visited name, and a head of this name prolongs it. -/
theorem circle_of_visit : ∀ (depth : Nat) {stack finished chain : List String} {name : String},
    stack.Nodup → (stack ++ [name]).IsChain defs.Leads → defs.visit depth stack finished name = .error chain →
      Circle defs chain
  | depth, stack, finished, chain, name, hn, hp, h => by
    unfold visit at h
    split at h
    · cases h
    split at h
    · rename_i hm
      cases h
      exact circle_of_mem hn hp (List.contains_iff_mem.1 hm)
    rename_i hm
    rw [List.contains_iff_mem] at hm
    cases depth with
    | zero => cases h
    | succ depth =>
      cases hv : (defs.headsOf name).foldlM (defs.visit depth (stack ++ [name])) finished with
      | ok between => simp only [hv, bind, Except.bind, pure, Except.pure, reduceCtorEq] at h
      | error chain' =>
        simp only [hv, bind, Except.bind, Except.error.injEq] at h
        subst h
        obtain ⟨head, hh, before, he⟩ := exists_of_foldlM_eq_error _ hv
        have hstack : (stack ++ [name]).Nodup := by
          rw [List.nodup_append]
          refine ⟨hn, by simp, fun a ha b hb he => ?_⟩
          rw [List.mem_singleton.1 hb] at he
          exact hm (he ▸ ha)
        have hpath : ((stack ++ [name]) ++ [head]).IsChain defs.Leads := by
          rw [List.isChain_append]
          exact ⟨hp, List.isChain_singleton _, by simpa using leads_iff.2 hh⟩
        exact circle_of_visit depth hstack hpath he

theorem circle_of_unguardedCycle? {names : List String} (h : defs.unguardedCycle? = some names) :
    Circle defs names := by
  unfold unguardedCycle? at h
  split at h
  · cases h
  · rename_i chain hf
    cases h
    obtain ⟨name, -, before, he⟩ := exists_of_foldlM_eq_error _ hf
    exact circle_of_visit _ List.nodup_nil (List.isChain_singleton _) he

/-- What leads to a defined name leads there over defined names. -/
theorem transGen_leadsWithin {a b : String} (h : Relation.TransGen defs.Leads a b) (hb : b ∈ defs.map (·.1)) :
    Relation.TransGen defs.LeadsWithin a b := by
  induction h with
  | single h => exact .single ⟨h.mem_names, hb, h⟩
  | tail _ h ih => exact .tail (ih h.mem_names) ⟨h.mem_names, hb, h⟩

theorem transGen_of_isChain {a b : String} : ∀ {names : List String}, (a :: (names ++ [b])).IsChain defs.Leads →
    Relation.TransGen defs.Leads a b
  | [], h => .single (List.isChain_cons_cons.1 h).1
  | n :: names, h => by
    obtain ⟨hn, h⟩ := List.isChain_cons_cons.1 h
    exact .head hn (transGen_of_isChain h)

/-- A name of a circle comes back to itself over defined names. -/
theorem Circle.exists_transGen {names : List String} (h : Circle defs names) :
    ∃ name, Relation.TransGen defs.LeadsWithin name name := by
  obtain ⟨h2, he, -, hl⟩ := h
  obtain ⟨a, rest, rfl⟩ := List.exists_cons_of_length_pos (show 0 < names.length by omega)
  rcases List.eq_nil_or_concat rest with rfl | ⟨between, b, rfl⟩
  · simp at h2
  · rw [List.concat_eq_append] at he hl
    have hab : a = b := by
      rw [← List.cons_append, List.getLast?_concat] at he
      exact Option.some.inj he
    subst hab
    have ht := transGen_of_isChain hl
    obtain ⟨b, hb, -⟩ := Relation.TransGen.head'_iff.1 ht
    exact ⟨a, transGen_leadsWithin ht hb.mem_names⟩

theorem Ranking.lt_of_transGen {rank : String → Nat} (hr : Ranking defs rank) {a b : String}
    (h : Relation.TransGen defs.LeadsWithin a b) : rank b < rank a := by
  induction h with
  | single h => exact hr.headsOf_lt (leads_iff.1 h.2.2)
  | tail _ h ih => exact Nat.lt_trans (hr.headsOf_lt (leads_iff.1 h.2.2)) ih

/-- **The search for a cycle is sound and complete.**  It finds nothing exactly when no defined name leads back to
itself over defined names, and what it finds is a circle of the graph of heads. -/
theorem unguardedCycle?_finds_circle (defs : Definitions) :
    (defs.unguardedCycle? = none ↔ ¬∃ name, Relation.TransGen defs.LeadsWithin name name) ∧
      ∀ names, defs.unguardedCycle? = some names → Circle defs names := by
  refine ⟨?_, fun names h => circle_of_unguardedCycle? h⟩
  constructor
  · intro h
    obtain ⟨rank, hr⟩ := exists_ranking h
    rintro ⟨name, hc⟩
    have := hr.lt_of_transGen hc
    omega
  · intro h
    cases hc : defs.unguardedCycle? with
    | none => rfl
    | some names => exact absurd (circle_of_unguardedCycle? hc).exists_transGen h

/-- Entries that may be links, and links and targets that lead to each other. -/
def entryTrees : Definitions :=
  [("Entry", .leaf (.union [.kind .string, .reference "Link"])),
    ("Link", .leaf (.optional (.union [.array (.reference "Entry"), .reference "Target"]))),
    ("Target", .leaf (.union [.literal .null, .reference "Link"]))]

/-- The circle is entered from outside, and the entries inside a list of them are none of its names. -/
theorem unguardedCycle?_finds_circle_entryTrees :
    entryTrees.unguardedCycle? = some ["Link", "Target", "Link"] ∧ Circle entryTrees ["Link", "Target", "Link"] := by
  have hc : entryTrees.unguardedCycle? = some ["Link", "Target", "Link"] := by rfl
  exact ⟨hc, (unguardedCycle?_finds_circle entryTrees).2 _ hc⟩

end Definitions

end Assay
