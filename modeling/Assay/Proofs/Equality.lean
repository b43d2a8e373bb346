import Assay.Constraint.Admits
import Assay.Proofs.Order
import Assay.Proofs.Union
/-!
# Equal constraints

`==` on constraints is symmetric and transitive, and equal constraints allow the same values (`allows_of_beq`), although
they need not be identical: `0` and `-0` are equal.  So `oneOf`, which opens unions and leaves out what is equal to an
earlier alternative, allows what some alternative allows (`allows_oneOf`).
-/
namespace Assay

namespace Bound

variable {a b c : Bound}

theorem beq_iff : (a == b) = true ↔ (a.value == b.value) = true ∧ a.inclusive = b.inclusive := by
  rw [show (a == b) = (a.value == b.value && a.inclusive == b.inclusive) from rfl, Bool.and_eq_true]
  exact and_congr_right fun _ => beq_iff_eq

theorem beq_symm (h : (a == b) = true) : (b == a) = true :=
  beq_iff.2 ⟨Double.beq_symm (beq_iff.1 h).1, (beq_iff.1 h).2.symm⟩

theorem beq_trans (hab : (a == b) = true) (hbc : (b == c) = true) : (a == c) = true :=
  beq_iff.2 ⟨Double.beq_trans (beq_iff.1 hab).1 (beq_iff.1 hbc).1, (beq_iff.1 hab).2.trans (beq_iff.1 hbc).2⟩

theorem admitsAbove_of_beq (h : (a == b) = true) (x : Double) : a.admitsAbove x = b.admitsAbove x := by
  obtain ⟨hv, hi⟩ := beq_iff.1 h
  unfold admitsAbove
  rw [hi, Double.le_congr_left hv, Double.lt_congr_left hv]

theorem admitsBelow_of_beq (h : (a == b) = true) (x : Double) : a.admitsBelow x = b.admitsBelow x := by
  obtain ⟨hv, hi⟩ := beq_iff.1 h
  unfold admitsBelow
  rw [hi, Double.le_congr_right hv, Double.lt_congr_right hv]

end Bound

section Ends

variable {min min' min'' : Option Bound}

/-- Two ends of ranges are equal when both are absent or both are equal bounds. -/
theorem end_beq_iff : (min == min') = true ↔
    (min = none ∧ min' = none) ∨ ∃ a b, min = some a ∧ min' = some b ∧ (a == b) = true := by
  cases min <;> cases min' <;> simp

theorem end_beq_symm (h : (min == min') = true) : (min' == min) = true := by
  rcases end_beq_iff.1 h with ⟨rfl, rfl⟩ | ⟨a, b, rfl, rfl, hab⟩
  · rfl
  · exact Bound.beq_symm hab

theorem end_beq_trans (h : (min == min') = true) (h' : (min' == min'') = true) : (min == min'') = true := by
  rcases end_beq_iff.1 h with ⟨rfl, rfl⟩ | ⟨a, b, rfl, rfl, hab⟩
  · exact h'
  · rcases end_beq_iff.1 h' with ⟨hb, _⟩ | ⟨b', c, hb, rfl, hbc⟩
    · cases hb
    · cases hb
      exact Bound.beq_trans hab hbc

end Ends

theorem Kind.admitsWithin_of_beq {k : Kind} {min max min' max' : Option Bound} (hmin : (min == min') = true)
    (hmax : (max == max') = true) (v : Json) : k.admitsWithin min max v = k.admitsWithin min' max' v := by
  unfold Kind.admitsWithin
  cases k.measure? v with
  | none => rfl
  | some x =>
    have hlo : min.all (·.admitsAbove x) = min'.all (·.admitsAbove x) := by
      rcases end_beq_iff.1 hmin with ⟨rfl, rfl⟩ | ⟨a, b, rfl, rfl, h⟩
      · rfl
      · exact Bound.admitsAbove_of_beq h x
    have hhi : max.all (·.admitsBelow x) = max'.all (·.admitsBelow x) := by
      rcases end_beq_iff.1 hmax with ⟨rfl, rfl⟩ | ⟨a, b, rfl, rfl, h⟩
      · rfl
      · exact Bound.admitsBelow_of_beq h x
    dsimp only
    rw [hlo, hhi]

namespace Literal

variable {a b c : Literal}

theorem beq_iff : (a == b) = true ↔
    a = b ∧ (∀ x, a ≠ .number x) ∨ ∃ x y, a = .number x ∧ b = .number y ∧ (x == y) = true := by
  show Literal.beq a b = true ↔ _
  cases a <;> cases b <;> simp [Literal.beq]

theorem beq_self_iff : (a == a) = true ↔ a ≠ .number .nan := by
  cases a with
  | number x => exact Double.beq_self_iff.trans (by simp)
  | _ => exact iff_of_true (beq_iff.2 (Or.inl ⟨rfl, by simp⟩)) (by simp)

theorem beq_symm (h : (a == b) = true) : (b == a) = true := by
  rcases beq_iff.1 h with ⟨rfl, hn⟩ | ⟨x, y, rfl, rfl, hxy⟩
  · exact h
  · exact Double.beq_symm hxy

theorem beq_trans (hab : (a == b) = true) (hbc : (b == c) = true) : (a == c) = true := by
  rcases beq_iff.1 hab with ⟨rfl, hn⟩ | ⟨x, y, rfl, rfl, hxy⟩
  · exact hbc
  · rcases beq_iff.1 hbc with ⟨rfl, hn⟩ | ⟨y', z, hy, rfl, hyz⟩
    · exact hab
    · cases hy
      exact Double.beq_trans hxy hyz

theorem admits_of_beq (h : (a == b) = true) (v : Json) : a.admits v = b.admits v := by
  rcases beq_iff.1 h with ⟨rfl, hn⟩ | ⟨x, y, rfl, rfl, hxy⟩
  · rfl
  · cases v with
    | number n => exact Double.beq_congr_right hxy n.toDouble
    | _ => rfl

end Literal

namespace Constraint

/-- How constraints are equal: by the same constructor and equal parts. -/
inductive EqualParts : Constraint → Constraint → Prop
  | kind (k : Kind) : EqualParts (kind k) (kind k)
  | range {k : Kind} {min max min' max' : Option Bound} : (min == min') = true → (max == max') = true →
    EqualParts (range k min max) (range k min' max')
  | format (f : Format) : EqualParts (format f) (format f)
  | literal {l l' : Literal} : (l == l') = true → EqualParts (literal l) (literal l')
  | union {cs cs' : List Constraint} : beqAll cs cs' = true → EqualParts (union cs) (union cs')
  | array {c c' : Constraint} : (c == c') = true → EqualParts (array c) (array c')
  | tuple {cs cs' : List Constraint} : beqAll cs cs' = true → EqualParts (tuple cs) (tuple cs')
  | optional {c c' : Constraint} : (c == c') = true → EqualParts (optional c) (optional c')
  | reference (n : String) : EqualParts (reference n) (reference n)

theorem beq_iff {c d : Constraint} : (c == d) = true ↔ EqualParts c d := by
  show Constraint.beq c d = true ↔ _
  constructor
  · intro h
    unfold Constraint.beq at h
    split at h
    · rw [beq_iff_eq.1 h]
      exact .kind _
    · obtain ⟨hk, hmax⟩ := Bool.and_eq_true_iff.1 h
      obtain ⟨hk, hmin⟩ := Bool.and_eq_true_iff.1 hk
      rw [beq_iff_eq.1 hk]
      exact .range hmin hmax
    · rw [beq_iff_eq.1 h]
      exact .format _
    · exact .literal h
    · exact .union h
    · exact .array h
    · exact .tuple h
    · exact .optional h
    · rw [beq_iff_eq.1 h]
      exact .reference _
    · cases h
  · intro h
    unfold Constraint.beq
    cases h with
    | kind k => exact beq_self_eq_true k
    | range hmin hmax => exact Bool.and_eq_true_iff.2 ⟨Bool.and_eq_true_iff.2 ⟨beq_self_eq_true _, hmin⟩, hmax⟩
    | format f => exact beq_self_eq_true f
    | reference n => exact beq_self_eq_true n
    | literal h => exact h
    | union h => exact h
    | array h => exact h
    | tuple h => exact h
    | optional h => exact h

mutual

theorem beq_symm : ∀ {c d : Constraint}, (c == d) = true → (d == c) = true
  | .kind _, _, h => by cases beq_iff.1 h; exact h
  | .range _ _ _, _, h => by
    cases beq_iff.1 h with
    | range hmin hmax => exact beq_iff.2 (.range (end_beq_symm hmin) (end_beq_symm hmax))
  | .format _, _, h => by cases beq_iff.1 h; exact h
  | .literal _, _, h => by
    cases beq_iff.1 h with
    | literal hl => exact beq_iff.2 (.literal (Literal.beq_symm hl))
  | .union _, _, h => by
    cases beq_iff.1 h with
    | union hs => exact beq_iff.2 (.union (beqAll_symm hs))
  | .array _, _, h => by
    cases beq_iff.1 h with
    | array hc => exact beq_iff.2 (.array (beq_symm hc))
  | .tuple _, _, h => by
    cases beq_iff.1 h with
    | tuple hs => exact beq_iff.2 (.tuple (beqAll_symm hs))
  | .optional _, _, h => by
    cases beq_iff.1 h with
    | optional hc => exact beq_iff.2 (.optional (beq_symm hc))
  | .reference _, _, h => by cases beq_iff.1 h; exact h

theorem beqAll_symm : ∀ {cs ds : List Constraint}, beqAll cs ds = true → beqAll ds cs = true
  | [], [], _ => rfl
  | _ :: _, _ :: _, h => by
    obtain ⟨hc, hs⟩ := Bool.and_eq_true_iff.1 h
    exact Bool.and_eq_true_iff.2 ⟨beq_symm hc, beqAll_symm hs⟩

end

mutual

theorem beq_trans : ∀ {c d e : Constraint}, (c == d) = true → (d == e) = true → (c == e) = true
  | .kind _, _, _, h, h' => by cases beq_iff.1 h; exact h'
  | .range _ _ _, _, _, h, h' => by
    cases beq_iff.1 h with
    | range hmin hmax =>
      cases beq_iff.1 h' with
      | range hmin' hmax' => exact beq_iff.2 (.range (end_beq_trans hmin hmin') (end_beq_trans hmax hmax'))
  | .format _, _, _, h, h' => by cases beq_iff.1 h; exact h'
  | .literal _, _, _, h, h' => by
    cases beq_iff.1 h with
    | literal hl =>
      cases beq_iff.1 h' with
      | literal hl' => exact beq_iff.2 (.literal (Literal.beq_trans hl hl'))
  | .union _, _, _, h, h' => by
    cases beq_iff.1 h with
    | union hs =>
      cases beq_iff.1 h' with
      | union hs' => exact beq_iff.2 (.union (beqAll_trans hs hs'))
  | .array _, _, _, h, h' => by
    cases beq_iff.1 h with
    | array hc =>
      cases beq_iff.1 h' with
      | array hc' => exact beq_iff.2 (.array (beq_trans hc hc'))
  | .tuple _, _, _, h, h' => by
    cases beq_iff.1 h with
    | tuple hs =>
      cases beq_iff.1 h' with
      | tuple hs' => exact beq_iff.2 (.tuple (beqAll_trans hs hs'))
  | .optional _, _, _, h, h' => by
    cases beq_iff.1 h with
    | optional hc =>
      cases beq_iff.1 h' with
      | optional hc' => exact beq_iff.2 (.optional (beq_trans hc hc'))
  | .reference _, _, _, h, h' => by cases beq_iff.1 h; exact h'

theorem beqAll_trans : ∀ {cs ds es : List Constraint}, beqAll cs ds = true → beqAll ds es = true → beqAll cs es = true
  | [], [], [], _, _ => rfl
  | _ :: _, _ :: _, _ :: _, h, h' => by
    obtain ⟨hc, hs⟩ := Bool.and_eq_true_iff.1 h
    obtain ⟨hc', hs'⟩ := Bool.and_eq_true_iff.1 h'
    exact Bool.and_eq_true_iff.2 ⟨beq_trans hc hc', beqAll_trans hs hs'⟩

end

theorem exists_of_beqAll : ∀ {ds cs : List Constraint}, beqAll ds cs = true → ∀ d ∈ ds, ∃ c ∈ cs, (d == c) = true
  | _ :: _, _ :: _, h, d, hd => by
    obtain ⟨hc, hs⟩ := Bool.and_eq_true_iff.1 h
    rcases List.mem_cons.1 hd with rfl | hd
    · exact ⟨_, List.mem_cons_self, hc⟩
    · obtain ⟨c, hm, he⟩ := exists_of_beqAll hs d hd
      exact ⟨c, List.mem_cons_of_mem _ hm, he⟩

theorem length_of_beqAll : ∀ {ds cs : List Constraint}, beqAll ds cs = true → ds.length = cs.length
  | [], [], _ => rfl
  | _ :: _, _ :: _, h => congrArg (· + 1) (length_of_beqAll (Bool.and_eq_true_iff.1 h).2)

section Allows

variable (follow : String → Json → Bool)

mutual

/-- **Equal constraints allow the same values.** -/
theorem allows_of_beq : ∀ {c d : Constraint}, (c == d) = true → ∀ v, c.allows follow v = d.allows follow v
  | .kind _, _, h, v => by cases beq_iff.1 h; rfl
  | .range _ _ _, _, h, v => by
    cases beq_iff.1 h with
    | range hmin hmax => exact Kind.admitsWithin_of_beq hmin hmax v
  | .format _, _, h, v => by cases beq_iff.1 h; rfl
  | .literal _, _, h, v => by
    cases beq_iff.1 h with
    | literal hl => exact Literal.admits_of_beq hl v
  | .union _, _, h, v => by
    cases beq_iff.1 h with
    | union hs => exact allowsAny_of_beqAll hs v
  | .array _, _, h, v => by
    cases beq_iff.1 h with
    | array hc =>
      unfold allows
      rw [funext (allows_of_beq hc)]
  | .tuple _, _, h, v => by
    cases beq_iff.1 h with
    | tuple hs =>
      unfold allows
      cases v with
      | array items => exact allowsEach_of_beqAll hs items
      | _ => rfl
  | .optional _, _, h, v => by
    cases beq_iff.1 h with
    | optional hc => exact allows_of_beq hc v
  | .reference _, _, h, v => by cases beq_iff.1 h; rfl

theorem allowsAny_of_beqAll : ∀ {cs ds : List Constraint}, beqAll cs ds = true → ∀ v,
    allowsAny follow cs v = allowsAny follow ds v
  | [], [], _, _ => rfl
  | _ :: _, _ :: _, h, v => by
    obtain ⟨hc, hs⟩ := Bool.and_eq_true_iff.1 h
    unfold allowsAny
    rw [allows_of_beq hc v, allowsAny_of_beqAll hs v]

theorem allowsEach_of_beqAll : ∀ {cs ds : List Constraint}, beqAll cs ds = true → ∀ vs,
    allowsEach follow cs vs = allowsEach follow ds vs
  | [], [], _, _ => rfl
  | _ :: _, _ :: _, _, [] => rfl
  | _ :: _, _ :: _, h, v :: vs => by
    obtain ⟨hc, hs⟩ := Bool.and_eq_true_iff.1 h
    unfold allowsEach
    rw [allows_of_beq hc v, allowsEach_of_beqAll hs vs]

end

variable {cs ds : List Constraint} {v : Json}

theorem allowsAny_iff : ∀ {cs : List Constraint},
    allowsAny follow cs v = true ↔ ∃ c ∈ cs, c.allows follow v = true
  | [] => by simp [allowsAny]
  | c :: cs => by
    rw [allowsAny, Bool.or_eq_true, allowsAny_iff]
    simp only [List.mem_cons, exists_eq_or_imp]

theorem allowsAny_append : allowsAny follow (cs ++ ds) v = (allowsAny follow cs v || allowsAny follow ds v) := by
  rw [Bool.eq_iff_iff, Bool.or_eq_true, allowsAny_iff, allowsAny_iff, allowsAny_iff]
  simp only [List.mem_append, or_and_right, exists_or]

theorem allowsAny_branches (c : Constraint) : allowsAny follow c.branches v = c.allows follow v := by
  cases c with
  | union cs => rfl
  | _ => simp [branches, allowsAny]

/-- **`oneOf` allows what some alternative allows.** -/
theorem allows_oneOf (cs : List Constraint) : (oneOf cs).allows follow v = allowsAny follow cs v := by
  have hd : allowsAny follow (cs.flatMap branches).eraseDups v = allowsAny follow cs v := by
    rw [Bool.eq_iff_iff, allowsAny_iff, allowsAny_iff]
    constructor
    · rintro ⟨b, hb, hv⟩
      obtain ⟨c, hc, hbc⟩ := List.mem_flatMap.1 (mem_of_mem_eraseDups hb)
      exact ⟨c, hc, by rw [← allowsAny_branches]; exact (allowsAny_iff follow).2 ⟨b, hbc, hv⟩⟩
    · rintro ⟨c, hc, hv⟩
      rw [← allowsAny_branches] at hv
      obtain ⟨b, hbc, hv⟩ := (allowsAny_iff follow).1 hv
      obtain ⟨a, ha, he⟩ := exists_mem_eraseDups (List.mem_flatMap.2 ⟨c, hc, hbc⟩)
      rcases he with rfl | he
      · exact ⟨b, ha, hv⟩
      · exact ⟨a, ha, by rw [← allows_of_beq follow he v]; exact hv⟩
  rcases oneOf_cases cs with ⟨c, hc, ho⟩ | ⟨-, ho⟩
  · rw [ho, ← hd, hc, allowsAny, allowsAny, Bool.or_false]
  · rw [ho, ← hd]
    rfl

end Allows

end Constraint

end Assay
