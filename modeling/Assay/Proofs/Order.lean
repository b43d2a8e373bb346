import Assay.Constraint.Basic
/-!
# The order of doubles

Comparisons of doubles are comparisons of their places on the line of units, which a NaN does not have.  So numeric
equality is symmetric and transitive, and doubles that are equal compare alike with all others.
-/
namespace Assay

namespace Double

variable {a b c : Double}

theorem lt_iff : a.lt b = true ↔ ∃ i j, a.place? = some i ∧ b.place? = some j ∧ i < j := by
  unfold Double.lt
  cases a.place? with
  | none => simp
  | some i => cases b.place? <;> simp

theorem beq_iff : (a == b) = true ↔ ∃ i, a.place? = some i ∧ b.place? = some i := by
  rw [show (a == b) = a.beq b from rfl, Double.beq]
  cases a.place? with
  | none => simp
  | some i =>
    cases b.place? with
    | none => simp
    | some j =>
      constructor
      · intro h
        exact ⟨i, rfl, by rw [eq_of_beq h]⟩
      · rintro ⟨_, hi, hj⟩
        cases hi
        cases hj
        exact beq_self_eq_true i

theorem exists_place_of_isFinite (h : a.isFinite = true) : ∃ i, a.place? = some i := by
  cases a with
  | finite x => exact ⟨x.signedUnits, rfl⟩
  | _ => cases h

theorem beq_self_of_isFinite (h : a.isFinite = true) : (a == a) = true := by
  obtain ⟨i, hi⟩ := exists_place_of_isFinite h
  exact beq_iff.2 ⟨i, hi, hi⟩

/-- Only a NaN differs from itself. -/
theorem beq_self_iff : (a == a) = true ↔ a ≠ .nan := by
  constructor
  · rintro h rfl
    obtain ⟨i, hi, -⟩ := beq_iff.1 h
    cases hi
  · intro h
    cases a with
    | finite x => exact beq_self_of_isFinite rfl
    | infinite negative => cases negative <;> exact beq_iff.2 ⟨_, rfl, rfl⟩
    | nan => exact absurd rfl h

theorem beq_symm (h : (a == b) = true) : (b == a) = true := by
  obtain ⟨i, ha, hb⟩ := beq_iff.1 h
  exact beq_iff.2 ⟨i, hb, ha⟩

theorem beq_trans (hab : (a == b) = true) (hbc : (b == c) = true) : (a == c) = true := by
  obtain ⟨i, ha, hb⟩ := beq_iff.1 hab
  obtain ⟨j, hb', hc⟩ := beq_iff.1 hbc
  rw [hb] at hb'
  cases hb'
  exact beq_iff.2 ⟨i, ha, hc⟩

/-- **Doubles that are equal have the same place.** -/
theorem place?_eq_of_beq (h : (a == b) = true) : a.place? = b.place? := by
  obtain ⟨i, ha, hb⟩ := beq_iff.1 h
  rw [ha, hb]

theorem beq_congr_left (h : (a == b) = true) (c : Double) : (a == c) = (b == c) := by
  show Double.beq a c = Double.beq b c
  unfold Double.beq
  rw [place?_eq_of_beq h]

theorem beq_congr_right (h : (a == b) = true) (c : Double) : (c == a) = (c == b) := by
  show Double.beq c a = Double.beq c b
  unfold Double.beq
  rw [place?_eq_of_beq h]

theorem lt_congr_left (h : (a == b) = true) (c : Double) : a.lt c = b.lt c := by
  unfold Double.lt
  rw [place?_eq_of_beq h]

theorem lt_congr_right (h : (a == b) = true) (c : Double) : c.lt a = c.lt b := by
  unfold Double.lt
  rw [place?_eq_of_beq h]

theorem le_congr_left (h : (a == b) = true) (c : Double) : a.le c = b.le c := by
  unfold Double.le
  rw [place?_eq_of_beq h]

theorem le_congr_right (h : (a == b) = true) (c : Double) : c.le a = c.le b := by
  unfold Double.le
  rw [place?_eq_of_beq h]

theorem lt_or_beq_of_not_lt (ha : a.isFinite = true) (hb : b.isFinite = true) (h : b.lt a = false) :
    a.lt b = true ∨ (a == b) = true := by
  obtain ⟨i, hi⟩ := exists_place_of_isFinite ha
  obtain ⟨j, hj⟩ := exists_place_of_isFinite hb
  have hn : ¬ j < i := fun hlt => by
    rw [lt_iff.2 ⟨j, i, hj, hi, hlt⟩] at h
    cases h
  by_cases hlt : i < j
  · exact Or.inl (lt_iff.2 ⟨i, j, hi, hj, hlt⟩)
  · have he : i = j := by omega
    exact Or.inr (beq_iff.2 ⟨i, hi, he ▸ hj⟩)

theorem not_lt_of_lt_or_beq (h : a.lt b = true ∨ (a == b) = true) : b.lt a = false := by
  rw [← Bool.not_eq_true, lt_iff]
  rintro ⟨j, i, hj, hi, hlt⟩
  rcases h with h | h
  · obtain ⟨i', j', hi', hj', h⟩ := lt_iff.1 h
    rw [hi] at hi'
    rw [hj] at hj'
    cases hi'
    cases hj'
    omega
  · have he := place?_eq_of_beq h
    rw [hi, hj] at he
    cases he
    omega

theorem not_beq_of_lt (h : a.lt b = true) : (a == b) = false := by
  rw [← Bool.not_eq_true]
  intro he
  rw [lt_congr_left he b] at h
  obtain ⟨i, j, hi, hj, hlt⟩ := lt_iff.1 h
  rw [hi] at hj
  cases hj
  omega

end Double

end Assay
