import Assay.Constraint.Check
/-!
# Unions without repetitions

`oneOf` opens its alternatives by one level and keeps the first of those that are equal.  A constraint is `Tidy` when it
passes its check and its union, if it is one, is as `oneOf` makes it; then `oneOf` leaves it alone (`oneOf_singleton`),
and a union of tidy constraints is tidy (`tidy_oneOf`).
-/
namespace Assay

section Repetitions

variable {α : Type} [BEq α]

/-- No element equals an earlier one. -/
def Unrepeated (as : List α) : Prop := as.Pairwise fun a b => (b == a) = false

theorem eraseDups_eq_self : ∀ {as : List α}, Unrepeated as → as.eraseDups = as
  | [], _ => rfl
  | a :: as, h => by
    obtain ⟨ha, has⟩ := List.pairwise_cons.1 h
    have hf : (as.filter fun b => !b == a) = as := List.filter_eq_self.2 fun b hb => by rw [ha b hb]; rfl
    rw [List.eraseDups_cons, hf, eraseDups_eq_self has]

theorem mem_of_mem_eraseDups {b : α} : ∀ {as : List α}, b ∈ as.eraseDups → b ∈ as
  | [], h => h
  | a :: as, h => by
    rw [List.eraseDups_cons] at h
    rcases List.mem_cons.1 h with rfl | h
    · exact List.mem_cons_self
    · have hf : b ∈ as.filter fun b => !b == a := mem_of_mem_eraseDups h
      exact List.mem_cons_of_mem _ (List.mem_filter.1 hf).1
termination_by as => as.length
decreasing_by exact Nat.lt_succ_of_le (List.length_filter_le _ _)

theorem unrepeated_eraseDups : ∀ (as : List α), Unrepeated as.eraseDups
  | [] => List.Pairwise.nil
  | a :: as => by
    rw [List.eraseDups_cons]
    refine List.pairwise_cons.2 ⟨fun b hb => ?_, unrepeated_eraseDups _⟩
    have hf := (List.mem_filter.1 (mem_of_mem_eraseDups hb)).2
    simpa using hf
termination_by as => as.length
decreasing_by exact Nat.lt_succ_of_le (List.length_filter_le _ _)

/-- What is left out equals something that is kept. -/
theorem exists_mem_eraseDups {b : α} : ∀ {as : List α}, b ∈ as → ∃ a ∈ as.eraseDups, b = a ∨ (b == a) = true
  | a :: as, h => by
    rw [List.eraseDups_cons]
    rcases List.mem_cons.1 h with rfl | h
    · exact ⟨b, List.mem_cons_self, Or.inl rfl⟩
    · cases hb : b == a with
      | true => exact ⟨a, List.mem_cons_self, Or.inr hb⟩
      | false =>
        have hf : b ∈ as.filter fun b => !b == a := List.mem_filter.2 ⟨h, by rw [hb]; rfl⟩
        obtain ⟨c, hc, he⟩ := exists_mem_eraseDups hf
        exact ⟨c, List.mem_cons_of_mem _ hc, he⟩
termination_by as => as.length
decreasing_by exact Nat.lt_succ_of_le (List.length_filter_le _ _)

theorem eraseDups_ne_nil {as : List α} (h : as ≠ []) : as.eraseDups ≠ [] := by
  cases as with
  | nil => exact absurd rfl h
  | cons a as =>
    rw [List.eraseDups_cons]
    exact List.cons_ne_nil _ _

end Repetitions

namespace Constraint

def isUnion : Constraint → Bool
  | union _ => true
  | _ => false

theorem branches_of_not_isUnion {c : Constraint} (h : c.isUnion = false) : c.branches = [c] := by
  cases c with
  | union cs => cases h
  | _ => rfl

/-- What `oneOf` makes of some constraints: the only distinct alternative, or a union of them. -/
theorem oneOf_cases (cs : List Constraint) :
    (∃ c, (cs.flatMap branches).eraseDups = [c] ∧ oneOf cs = c) ∨
      ((cs.flatMap branches).eraseDups.length ≠ 1 ∧ oneOf cs = union (cs.flatMap branches).eraseDups) := by
  unfold oneOf
  split
  · rename_i c h
    exact Or.inl ⟨c, h, rfl⟩
  · rename_i h
    exact Or.inr ⟨fun hl => (List.length_eq_one_iff.1 hl).elim h, rfl⟩

theorem checkAll_eq_ok_iff : ∀ {cs : List Constraint}, checkAll cs = .ok () ↔ ∀ c ∈ cs, c.checkInner = .ok ()
  | [] => by simp [checkAll]
  | c :: cs => by
    rw [checkAll, List.forall_mem_cons, ← checkAll_eq_ok_iff]
    cases c.checkInner <;> simp [bind, Except.bind]

theorem checkInner_union_eq_ok_iff {cs : List Constraint} :
    (union cs).checkInner = .ok () ↔ 2 ≤ cs.length ∧ ∀ c ∈ cs, c.checkInner = .ok () := by
  rw [checkInner, ← checkAll_eq_ok_iff]
  split
  · simp; omega
  · simp; omega

/-- **A constraint as the reader builds it**: well formed, and with alternatives that are no unions and do not repeat. -/
structure Tidy (c : Constraint) : Prop where
  checked : c.checkInner = .ok ()
  plain : ∀ b ∈ c.branches, b.isUnion = false
  unrepeated : Unrepeated c.branches

theorem tidy_of_not_isUnion {c : Constraint} (hc : c.checkInner = .ok ()) (hu : c.isUnion = false) : Tidy c := by
  have hb := branches_of_not_isUnion hu
  refine ⟨hc, fun b hm => ?_, ?_⟩
  · rw [hb] at hm
    rw [List.mem_singleton.1 hm]
    exact hu
  · rw [hb]
    exact List.pairwise_singleton _ _

namespace Tidy

variable {c : Constraint}

theorem checked_branch (h : Tidy c) : ∀ b ∈ c.branches, b.checkInner = .ok () := by
  intro b hb
  cases hu : c.isUnion with
  | false =>
    rw [branches_of_not_isUnion hu] at hb
    rw [List.mem_singleton.1 hb]
    exact h.checked
  | true =>
    cases c with
    | union cs => exact (checkInner_union_eq_ok_iff.1 h.checked).2 b hb
    | _ => cases hu

theorem branches_ne_nil (h : Tidy c) : c.branches ≠ [] := by
  cases hu : c.isUnion with
  | false =>
    rw [branches_of_not_isUnion hu]
    exact List.cons_ne_nil _ _
  | true =>
    cases c with
    | union cs =>
      intro hn
      have hl : 2 ≤ cs.length := (checkInner_union_eq_ok_iff.1 h.checked).1
      rw [show cs = [] from hn] at hl
      exact absurd hl (by decide)
    | _ => cases hu

theorem check_eq_ok (h : Tidy c) : c.check = .ok () := by
  cases c with
  | optional c => cases h.checked
  | _ => exact h.checked

/-- **`oneOf` leaves a tidy constraint alone.** -/
theorem oneOf_singleton (h : Tidy c) : oneOf [c] = c := by
  have hd : ([c].flatMap branches).eraseDups = c.branches := by
    rw [List.flatMap_cons, List.flatMap_nil, List.append_nil, eraseDups_eq_self h.unrepeated]
  rcases oneOf_cases [c] with ⟨d, hb, ho⟩ | ⟨hl, ho⟩
  · rw [hd] at hb
    cases c with
    | union cs =>
      have h2 : 2 ≤ cs.length := (checkInner_union_eq_ok_iff.1 h.checked).1
      rw [show cs = [d] from hb, List.length_singleton] at h2
      omega
    | _ =>
      cases hb
      exact ho
  · rw [hd] at hl ho
    rw [ho]
    cases c with
    | union cs => rfl
    | _ => exact absurd rfl hl

end Tidy

/-- **The union of tidy constraints is tidy.** -/
theorem tidy_oneOf {cs : List Constraint} (hn : cs ≠ []) (h : ∀ c ∈ cs, Tidy c) : Tidy (oneOf cs) := by
  have hm : ∀ b ∈ (cs.flatMap branches).eraseDups, ∃ c ∈ cs, b ∈ c.branches := fun b hb =>
    List.mem_flatMap.1 (mem_of_mem_eraseDups hb)
  have hplain : ∀ b ∈ (cs.flatMap branches).eraseDups, b.isUnion = false := fun b hb => by
    obtain ⟨c, hc, hbc⟩ := hm b hb
    exact (h c hc).plain b hbc
  have hchecked : ∀ b ∈ (cs.flatMap branches).eraseDups, b.checkInner = .ok () := fun b hb => by
    obtain ⟨c, hc, hbc⟩ := hm b hb
    exact (h c hc).checked_branch b hbc
  rcases oneOf_cases cs with ⟨d, hd, ho⟩ | ⟨hl, ho⟩
  · rw [ho]
    have hmem : d ∈ (cs.flatMap branches).eraseDups := by rw [hd]; exact List.mem_cons_self
    exact tidy_of_not_isUnion (hchecked d hmem) (hplain d hmem)
  · rw [ho]
    refine ⟨checkInner_union_eq_ok_iff.2 ⟨?_, hchecked⟩, hplain, unrepeated_eraseDups _⟩
    have hne : (cs.flatMap branches).eraseDups ≠ [] := by
      refine eraseDups_ne_nil fun he => ?_
      obtain ⟨c, hc⟩ := List.exists_mem_of_ne_nil cs hn
      exact (h c hc).branches_ne_nil (List.flatMap_eq_nil_iff.1 he c hc)
    have := List.length_pos_iff.2 hne
    omega

end Constraint

end Assay
