import Assay.Schema.Cycle
/-!
# Definitions without unguarded cycles

The search for a cycle finishes a name only after the names its definition follows first, so when it finds no cycle the
names stand in an order in which every definition's heads come later (`Settled`), and counting the definitions from a
name on ranks them (`exists_ranking`): a head ranks below the definition that follows it.  Where there is such a ranking
the search never comes back to an open name, wherever it starts, so that it finds no cycle exactly when the definitions
can be ranked (`unguardedCycle?_eq_none_iff`).
-/
namespace Assay

namespace Definitions

variable {defs : Definitions}

/-- The names are finished: each stands once, and the heads of its definition stand after it. -/
def Settled (defs : Definitions) : List String → Prop
  | [] => True
  | name :: rest => name ∉ rest ∧ (∀ head ∈ defs.headsOf name, head ∈ rest) ∧ Settled defs rest

theorem nodup_of_settled : ∀ {finished : List String}, Settled defs finished → finished.Nodup
  | [], _ => List.nodup_nil
  | _ :: _, h => List.nodup_cons.2 ⟨h.1, nodup_of_settled h.2.2⟩

/-- What a visit of `names` makes of the finished names: they stay finished, the visited ones are among them, and none
that is still open is. -/
structure Visited (defs : Definitions) (stack finished names finished' : List String) : Prop where
  settled : Settled defs finished'
  kept : ∀ name ∈ finished, name ∈ finished'
  done : ∀ name ∈ names, name ∈ finished'
  fresh : ∀ name ∈ finished', name ∈ finished ∨ name ∉ stack

/-- The names that are open in the search: each once, each defined, and as many as the depth has sunk. -/
structure Open (defs : Definitions) (stack : List String) (depth : Nat) : Prop where
  nodup : stack.Nodup
  defined : ∀ name ∈ stack, name ∈ defs.map (·.1)
  sunk : stack.length + depth = defs.length + 1

theorem mem_names_iff {name : String} : name ∈ defs.map (·.1) ↔ ∃ t, defs.lookup name = some t := by
  rw [← Option.isSome_iff_exists, List.lookup_isSome_iff, List.mem_map]
  refine exists_congr fun d => and_congr_right fun _ => ?_
  rw [beq_iff_eq, eq_comm]

theorem mem_names_of_mem_headsOf {name head : String} (h : head ∈ defs.headsOf name) : name ∈ defs.map (·.1) := by
  unfold headsOf at h
  split at h
  · rename_i t ht
    exact mem_names_iff.2 ⟨t, ht⟩
  · cases h

namespace Open

variable {stack : List String} {depth : Nat}

theorem length_le (ho : Open defs stack depth) : stack.length ≤ defs.length := by
  rw [← List.length_map (f := fun d : String × Tree => d.1)]
  exact ho.nodup.length_le_of_subset ho.defined

theorem push (ho : Open defs stack (depth + 1)) {name head : String} (hn : name ∉ stack)
    (hh : head ∈ defs.headsOf name) : Open defs (stack ++ [name]) depth where
  nodup := List.nodup_append.2 ⟨ho.nodup, by simp, fun a ha b hb hab => by
    rw [List.mem_singleton.1 hb] at hab
    exact hn (hab ▸ ha)⟩
  defined n hm := by
    rcases List.mem_append.1 hm with hm | hm
    · exact ho.defined n hm
    · rw [List.mem_singleton.1 hm]
      exact mem_names_of_mem_headsOf hh
  sunk := by
    have := ho.sunk
    rw [List.length_append, List.length_singleton]
    omega

end Open

/-- Visits one after another, each with the property of one visit. -/
theorem visited_foldlM {stack : List String} {step : List String → String → Except (List String) (List String)} :
    ∀ (names : List String) {finished finished' : List String},
      (∀ name ∈ names, ∀ before after, Settled defs before → step before name = .ok after →
        Visited defs stack before [name] after) →
      Settled defs finished → names.foldlM step finished = .ok finished' → Visited defs stack finished names finished'
  | [], finished, finished', _, hs, h => by
    rw [List.foldlM_nil] at h
    cases h
    exact ⟨hs, fun _ hn => hn, fun _ hn => absurd hn List.not_mem_nil, fun _ hn => Or.inl hn⟩
  | name :: names, finished, finished', hstep, hs, h => by
    rw [List.foldlM_cons] at h
    cases hv : step finished name with
    | error cycle => rw [hv] at h; cases h
    | ok between =>
      rw [hv] at h
      have h1 := hstep name List.mem_cons_self finished between hs hv
      have h2 := visited_foldlM names (fun n hn => hstep n (List.mem_cons_of_mem _ hn)) h1.settled h
      refine ⟨h2.settled, fun n hn => h2.kept n (h1.kept n hn), fun n hn => ?_, fun n hn => ?_⟩
      · rcases List.mem_cons.1 hn with rfl | hn
        · exact h2.kept _ (h1.done _ List.mem_cons_self)
        · exact h2.done n hn
      · exact (h2.fresh n hn).elim (h1.fresh n) Or.inr

/-- **A visit that closes no chain settles its name**, by induction on the depth that is left: the name is open while
its heads are visited, so none of these visits finishes it, and it can be put in front of them. -/
theorem visited_visit : ∀ (depth : Nat) {stack finished finished' : List String} {name : String},
    Open defs stack depth → Settled defs finished → defs.visit depth stack finished name = .ok finished' →
      Visited defs stack finished [name] finished'
  | depth, stack, finished, finished', name, ho, hs, h => by
    unfold visit at h
    split at h
    · rename_i hf
      cases h
      exact ⟨hs, fun _ hn => hn, fun n hn => List.mem_singleton.1 hn ▸ List.contains_iff_mem.1 hf,
        fun _ hn => Or.inl hn⟩
    rename_i hf
    split at h
    · cases h
    rename_i hst
    rw [List.contains_iff_mem] at hf hst
    cases depth with
    | zero => exact absurd ho.length_le (by have := ho.sunk; omega)
    | succ depth =>
      cases hv : (defs.headsOf name).foldlM (defs.visit depth (stack ++ [name])) finished with
      | error cycle => simp only [hv, bind, Except.bind, reduceCtorEq] at h
      | ok between =>
        simp only [hv, bind, Except.bind, pure, Except.pure, Except.ok.injEq] at h
        have hb := visited_foldlM _ (fun head hh _ _ => visited_visit depth (ho.push hst hh)) hs hv
        have hname : name ∉ between := fun hn =>
          (hb.fresh name hn).elim hf (fun hn => hn (List.mem_append_right _ List.mem_cons_self))
        subst h
        refine ⟨⟨hname, hb.done, hb.settled⟩, fun n hn => List.mem_cons_of_mem _ (hb.kept n hn), fun n hn => ?_,
          fun n hn => ?_⟩
        · rw [List.mem_singleton.1 hn]
          exact List.mem_cons_self
        · rcases List.mem_cons.1 hn with rfl | hn
          · exact Or.inr hst
          · exact (hb.fresh n hn).imp_right fun hn hs => hn (List.mem_append_left _ hs)

/-- The number of definitions from a name on among the finished names. -/
def rankIn (defs : Definitions) : List String → String → Nat
  | [], _ => 0
  | n :: rest, name =>
    if n = name then (n :: rest).countP (fun m => (defs.lookup m).isSome) else rankIn defs rest name

theorem rankIn_le_countP (name : String) : ∀ (finished : List String),
    rankIn defs finished name ≤ finished.countP (fun m => (defs.lookup m).isSome)
  | [] => Nat.le_refl _
  | n :: rest => by
    unfold rankIn
    split
    · exact Nat.le_refl _
    · exact Nat.le_trans (rankIn_le_countP name rest) (List.sublist_cons_self n rest).countP_le

theorem rankIn_pos {name : String} {t : Tree} (ht : defs.lookup name = some t) : ∀ {finished : List String},
    name ∈ finished → 0 < rankIn defs finished name
  | n :: rest, h => by
    unfold rankIn
    split
    · rename_i hn
      rw [List.countP_cons_of_pos (by simp [hn, ht])]
      exact Nat.succ_pos _
    · rename_i hn
      exact rankIn_pos ht ((List.mem_cons.1 h).resolve_left (Ne.symm hn))

theorem Settled.mem_of_head {name head : String} (hh : head ∈ defs.headsOf name) : ∀ {finished : List String},
    Settled defs finished → name ∈ finished → head ∈ finished
  | n :: rest, hs, h => by
    refine List.mem_cons_of_mem _ ?_
    rcases List.mem_cons.1 h with rfl | h
    · exact hs.2.1 head hh
    · exact hs.2.2.mem_of_head hh h

theorem rankIn_head_lt {name head : String} {t : Tree} (ht : defs.lookup name = some t)
    (hh : head ∈ defs.headsOf name) : ∀ {finished : List String}, Settled defs finished → name ∈ finished →
    rankIn defs finished head < rankIn defs finished name
  | n :: rest, hs, h => by
    by_cases hn : n = name
    · subst hn
      have hne : n ≠ head := fun he => hs.1 (he ▸ hs.2.1 head hh)
      rw [rankIn, rankIn, if_neg hne, if_pos rfl, List.countP_cons_of_pos (by simp [ht])]
      exact Nat.lt_succ_of_le (rankIn_le_countP head rest)
    · have hm : name ∈ rest := (List.mem_cons.1 h).resolve_left (Ne.symm hn)
      have hne : n ≠ head := fun he => hs.1 (he ▸ hs.2.2.mem_of_head hh hm)
      rw [rankIn, rankIn, if_neg hne, if_neg hn]
      exact rankIn_head_lt ht hh hs.2.2 hm

/-- **A ranking of the definitions**: a head ranks below the definition that follows it, and there are no more ranks
than definitions. -/
structure Ranking (defs : Definitions) (rank : String → Nat) : Prop where
  pos : ∀ name t, defs.lookup name = some t → 0 < rank name
  le : ∀ name, rank name ≤ defs.length
  head_lt : ∀ name t, defs.lookup name = some t → ∀ head ∈ t.heads, rank head < rank name

theorem settled_of_unguardedCycle?_eq_none (h : defs.unguardedCycle? = none) :
    ∃ finished, Settled defs finished ∧ ∀ name ∈ defs.map (·.1), name ∈ finished := by
  unfold unguardedCycle? at h
  split at h
  · rename_i finished hf
    have ho : Open defs [] (defs.length + 1) :=
      ⟨List.nodup_nil, fun _ hn => absurd hn List.not_mem_nil, by simp⟩
    have hv := visited_foldlM _ (fun _ _ _ _ => visited_visit _ ho) (show Settled defs [] from trivial) hf
    exact ⟨finished, hv.settled, hv.done⟩
  · cases h

/-- **Definitions in which no cycle is found can be ranked.** -/
theorem exists_ranking (h : defs.unguardedCycle? = none) : ∃ rank, Ranking defs rank := by
  obtain ⟨finished, hs, hm⟩ := settled_of_unguardedCycle?_eq_none h
  refine ⟨rankIn defs finished, fun name t ht => ?_, fun name => ?_, fun name t ht head hh => ?_⟩
  · exact rankIn_pos ht (hm name (mem_names_iff.2 ⟨t, ht⟩))
  · refine Nat.le_trans (rankIn_le_countP name finished) ?_
    rw [List.countP_eq_length_filter, ← List.length_map (f := fun d : String × Tree => d.1)]
    refine List.Nodup.length_le_of_subset ((nodup_of_settled hs).filter _) fun n hn => ?_
    exact mem_names_iff.2 (Option.isSome_iff_exists.1 (List.mem_filter.1 hn).2)
  · exact rankIn_head_lt ht (by unfold headsOf; rw [ht]; exact hh) hs (hm name (mem_names_iff.2 ⟨t, ht⟩))

theorem Ranking.headsOf_lt {rank : String → Nat} (hr : Ranking defs rank) {name head : String}
    (h : head ∈ defs.headsOf name) : rank head < rank name := by
  obtain ⟨t, ht⟩ := mem_names_iff.1 (mem_names_of_mem_headsOf h)
  rw [headsOf, ht] at h
  exact hr.head_lt name t ht head h

/-- Visits one after another, none of which closes a chain. -/
theorem exists_foldlM_eq_ok {step : List String → String → Except (List String) (List String)} :
    ∀ (names : List String), (∀ name ∈ names, ∀ before, ∃ after, step before name = .ok after) →
      ∀ finished, ∃ finished', names.foldlM step finished = .ok finished'
  | [], _, finished => ⟨finished, rfl⟩
  | name :: names, h, finished => by
    obtain ⟨between, hb⟩ := h name List.mem_cons_self finished
    obtain ⟨finished', hf⟩ :=
      exists_foldlM_eq_ok names (fun n hn => h n (List.mem_cons_of_mem _ hn)) between
    refine ⟨finished', ?_⟩
    rw [List.foldlM_cons, hb]
    exact hf

/-- **A visit of a name that ranks below the open ones closes no chain**, by induction on the depth that is left: the
name is not open, and its heads rank below it. -/
theorem Ranking.exists_visit_eq_ok {rank : String → Nat} (hr : Ranking defs rank) : ∀ (depth : Nat)
    {stack : List String} {name : String}, (∀ n ∈ stack, rank name < rank n) → ∀ finished,
      ∃ finished', defs.visit depth stack finished name = .ok finished'
  | depth, stack, name, h, finished => by
    unfold visit
    by_cases hf : finished.contains name
    · exact ⟨finished, if_pos hf⟩
    have hs : ¬stack.contains name = true := fun hs => Nat.lt_irrefl _ (h name (List.contains_iff_mem.1 hs))
    rw [if_neg hf, if_neg hs]
    cases depth with
    | zero => exact ⟨finished, rfl⟩
    | succ depth =>
      have hheads : ∀ head ∈ defs.headsOf name, ∀ n ∈ stack ++ [name], rank head < rank n := by
        intro head hh n hn
        rcases List.mem_append.1 hn with hn | hn
        · exact Nat.lt_trans (hr.headsOf_lt hh) (h n hn)
        · rw [List.mem_singleton.1 hn]
          exact hr.headsOf_lt hh
      obtain ⟨between, hb⟩ :=
        exists_foldlM_eq_ok _ (fun head hh => hr.exists_visit_eq_ok depth (hheads head hh)) finished
      refine ⟨name :: between, ?_⟩
      dsimp only
      rw [hb]
      rfl

/-- **The search finds no cycle exactly when the definitions can be ranked.** -/
theorem unguardedCycle?_eq_none_iff : defs.unguardedCycle? = none ↔ ∃ rank, Ranking defs rank := by
  refine ⟨exists_ranking, fun ⟨rank, hr⟩ => ?_⟩
  obtain ⟨finished, hf⟩ := exists_foldlM_eq_ok (defs.map (·.1))
    (fun name _ => hr.exists_visit_eq_ok (defs.length + 1) fun _ hn => absurd hn List.not_mem_nil) []
  rw [unguardedCycle?, hf]

/-- **Whether there is a cycle depends on the definition of each name alone**, and not on their order. -/
theorem unguardedCycle?_eq_none_congr {defs' : Definitions} (hl : ∀ name, defs.lookup name = defs'.lookup name)
    (hn : defs.length = defs'.length) : defs.unguardedCycle? = none ↔ defs'.unguardedCycle? = none := by
  rw [unguardedCycle?_eq_none_iff, unguardedCycle?_eq_none_iff]
  refine exists_congr fun rank => ⟨fun h => ⟨?_, ?_, ?_⟩, fun h => ⟨?_, ?_, ?_⟩⟩
  · simpa only [hl] using h.pos
  · simpa only [hn] using h.le
  · simpa only [hl] using h.head_lt
  · simpa only [hl] using h.pos
  · simpa only [hn] using h.le
  · simpa only [hl] using h.head_lt

end Definitions

/-- The definitions with `a` under `name`, if this is one of their names. -/
def redefine {α : Type} (name : String) (a : α) (defs : List (String × α)) : List (String × α) :=
  defs.map fun e => (e.1, if e.1 = name then a else e.2)

theorem map_fst_redefine {α : Type} (name : String) (a : α) (defs : List (String × α)) :
    (redefine name a defs).map (·.1) = defs.map (·.1) := List.map_map

theorem lookup_redefine {α : Type} (name : String) (a : α) (n : String) (defs : List (String × α)) :
    (redefine name a defs).lookup n = (defs.lookup n).map fun b => if n = name then a else b := by
  unfold redefine
  induction defs with
  | nil => rfl
  | cons e defs ih =>
    rw [List.map_cons, List.lookup_cons, List.lookup_cons, ih]
    split
    · rename_i he
      rw [beq_iff_eq.1 he]
      rfl
    · rfl

theorem redefine_of_not_mem {α : Type} {name : String} {defs : List (String × α)} (h : name ∉ defs.map (·.1)) (a : α) :
    redefine name a defs = defs := by
  refine (List.map_congr_left fun e he => ?_).trans (List.map_id defs)
  have hne : e.1 ≠ name := fun hn => h (hn ▸ List.mem_map_of_mem he)
  rw [if_neg hne]
  rfl

namespace Definitions

variable {defs : Definitions}

/-- **Definitions stay ranked when one becomes a tree that follows nothing first.** -/
theorem Ranking.redefine {name : String} {t : Tree} {rank : String → Nat} (h : Ranking defs rank)
    (hheads : t.heads = []) : Ranking (redefine name t defs) rank := by
  refine ⟨fun n u hu => ?_, fun n => ?_, fun n u hu head hh => ?_⟩
  · rw [lookup_redefine] at hu
    obtain ⟨u', hu', -⟩ := Option.map_eq_some_iff.1 hu
    exact h.pos n u' hu'
  · rw [Assay.redefine, List.length_map]
    exact h.le n
  · rw [lookup_redefine] at hu
    obtain ⟨u', hu', rfl⟩ := Option.map_eq_some_iff.1 hu
    split at hh
    · rw [hheads] at hh
      cases hh
    · exact h.head_lt n u' hu' head hh

/-- **Definitions stay ranked with one more** under a new name, if it follows only them first and they do not follow
it: it ranks above them all. -/
theorem Ranking.append {name : String} {t : Tree} {rank : String → Nat} (h : Ranking defs rank)
    (hname : name ∉ defs.map (·.1)) (hold : ∀ n u, defs.lookup n = some u → name ∉ u.heads)
    (hnew : name ∉ t.heads) :
      Ranking (defs ++ [(name, t)]) fun n => if n = name then defs.length + 1 else rank n := by
  have hlookup : ∀ n, n ≠ name → (defs ++ [(name, t)]).lookup n = defs.lookup n := fun n hn => by
    rw [List.lookup_append, List.lookup_cons, beq_false_of_ne hn]
    exact Option.or_none
  have hself : (defs ++ [(name, t)]).lookup name = some t := by
    have hnone : defs.lookup name = none :=
      List.lookup_eq_none_iff.2 fun d hd => bne_iff_ne.2 fun he => hname (he ▸ List.mem_map_of_mem hd)
    rw [List.lookup_append, hnone, List.lookup_cons_self]
    rfl
  refine ⟨fun n u hu => ?_, fun n => ?_, fun n u hu head hh => ?_⟩
  · split
    · exact Nat.succ_pos _
    · rename_i hn
      exact h.pos n u (hlookup n hn ▸ hu)
  · rw [List.length_append, List.length_singleton]
    split
    · exact Nat.le_refl _
    · exact Nat.le_succ_of_le (h.le n)
  · by_cases hn : n = name
    · rw [hn, hself, Option.some.injEq] at hu
      subst hu
      rw [if_pos hn, if_neg fun he : head = name => hnew (he ▸ hh)]
      exact Nat.lt_succ_of_le (h.le head)
    · rw [hlookup n hn] at hu
      rw [if_neg hn, if_neg fun he : head = name => hold n u hu (he ▸ hh)]
      exact h.head_lt n u hu head hh

end Definitions

end Assay
