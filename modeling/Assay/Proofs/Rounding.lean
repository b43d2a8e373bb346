import Assay.Json.Basic
import Assay.Proofs.Decimals
/-!
# What rounding gives

A magnitude that was rounded to 53 significant bits is a whole multiple of its own gap, even where it was rounded up to
the next power of two and the gap has doubled (`ulp_dvd_roundUnits`).  So rounding gives a finite double unless it
leaves the range, which no integer of 64 bits does (`Number.isFinite_toDouble`).  And it does not carry a magnitude past
that of a double (`le_roundUnits`, `roundUnits_le_of_le`), as every double up to the next power of two is on its grid.
-/
namespace Assay

theorem roundHalfEven_le (num den : Nat) : roundHalfEven num den ≤ num / den + 1 := by
  unfold roundHalfEven
  dsimp only
  split
  · exact Nat.le_succ _
  · exact Nat.le_refl _

/-- At most 53 bits, or the power of two that follows them, are a multiple of the gap that they have. -/
theorem ulp_dvd_mul_pow {r k : Nat} (hr : r ≤ Nat.pow 2 53) : ulp (r * Nat.pow 2 k) ∣ r * Nat.pow 2 k := by
  have hpos : 0 < Nat.pow 2 k := Nat.pow_pos (by decide)
  rcases Nat.eq_zero_or_pos r with rfl | h0
  · rw [Nat.zero_mul]
    exact Nat.dvd_zero _
  have hne : r * Nat.pow 2 k ≠ 0 := Nat.ne_of_gt (Nat.mul_pos h0 hpos)
  rcases Nat.lt_or_eq_of_le hr with hlt | rfl
  · -- The gap is still that of the grid.
    have hlog : (r * Nat.pow 2 k).log2 < 53 + k := (Nat.log2_lt hne).2 <| by
      rw [Nat.pow_add]
      exact Nat.mul_lt_mul_of_pos_right hlt hpos
    exact Nat.dvd_trans (Nat.pow_dvd_pow 2 (by omega)) (Nat.dvd_mul_left _ _)
  · have he : Nat.pow 2 53 * Nat.pow 2 k = Nat.pow 2 (53 + k) := (Nat.pow_add 2 53 k).symm
    have hlog : (Nat.pow 2 53 * Nat.pow 2 k).log2 ≤ 53 + k := by
      rw [he]
      exact Nat.le_of_eq Nat.log2_two_pow
    rw [ulp]
    generalize (Nat.pow 2 53 * Nat.pow 2 k).log2 = l at hlog
    rw [he]
    exact Nat.pow_dvd_pow 2 (by omega)

/-- What is left of a magnitude on its grid has 53 bits, or is the power of two that follows them. -/
theorem roundHalfEven_ulp_le (num den : Nat) : roundHalfEven num (den * ulp (num / den)) ≤ Nat.pow 2 53 := by
  refine Nat.le_trans (roundHalfEven_le _ _) ?_
  rw [← Nat.div_div_eq_div_mul]
  generalize num / den = q
  refine Nat.succ_le_of_lt ((Nat.div_lt_iff_lt_mul (Nat.pow_pos (by decide))).2 ?_)
  show q < Nat.pow 2 53 * Nat.pow 2 (q.log2 - 52)
  have hq : q < Nat.pow 2 (q.log2 + 1) := Nat.lt_log2_self
  have he : Nat.pow 2 53 * Nat.pow 2 (q.log2 - 52) = Nat.pow 2 (53 + (q.log2 - 52)) := (Nat.pow_add 2 _ _).symm
  rw [he]
  exact Nat.lt_of_lt_of_le hq (Nat.pow_le_pow_right (by decide) (by omega))

/-- **A rounded magnitude is a multiple of its own gap.** -/
theorem ulp_dvd_roundUnits (num den : Nat) : ulp (roundUnits num den) ∣ roundUnits num den :=
  ulp_dvd_mul_pow (roundHalfEven_ulp_le num den)

/-- Rounding does not go past a power of two. -/
theorem roundUnits_le {num den j : Nat} (h : num / den < Nat.pow 2 (53 + j)) :
    roundUnits num den ≤ Nat.pow 2 (53 + j) := by
  have hgap : ulp (num / den) ≤ Nat.pow 2 j := by
    generalize num / den = q at h
    refine Nat.pow_le_pow_right (by decide) ?_
    rcases Nat.eq_zero_or_pos q with rfl | hq
    · simp
    · have := (Nat.log2_lt (Nat.ne_of_gt hq)).2 h
      omega
  have he : Nat.pow 2 (53 + j) = Nat.pow 2 53 * Nat.pow 2 j := Nat.pow_add 2 53 j
  rw [he]
  exact Nat.mul_le_mul (roundHalfEven_ulp_le num den) hgap

/-- Neighbouring magnitudes lie further apart, or no closer, as they grow. -/
theorem ulp_dvd_ulp {u v : Nat} (h : u ≤ v) : ulp u ∣ ulp v := by
  have hlog : u.log2 ≤ v.log2 := by
    by_cases hu : u = 0
    · simp [hu]
    · have hpow : Nat.pow 2 u.log2 ≤ v := Nat.le_trans (Nat.log2_self_le hu) h
      have hv : v ≠ 0 := by omega
      exact (Nat.le_log2 hv).2 hpow
  exact Nat.pow_dvd_pow 2 (by omega)

theorem le_div_mul_of_dvd {g p q : Nat} (hg : g ∣ p) (h : p ≤ q) : p ≤ q / g * g := by
  have hp : p / g * g = p := Nat.div_mul_cancel hg
  have hq : p / g ≤ q / g := Nat.div_le_div_right h
  rw [← hp]
  exact Nat.mul_le_mul_right g hq

/-- **Cutting a magnitude to its grid does not pass a double**: one of the same size is on the grid, and a smaller one
is below the power of two, which is. -/
theorem le_div_mul_ulp {u q : Nat} (hu : ulp u ∣ u) (h : u ≤ q) : u ≤ q / ulp q * ulp q := by
  by_cases hlog : u.log2 = q.log2
  · have he : ulp q ∣ u := by
      have hgap : ulp u = ulp q := by rw [ulp, ulp, hlog]
      exact hgap ▸ hu
    exact le_div_mul_of_dvd he h
  · by_cases h0 : u = 0
    · simp [h0]
    · have hq : q ≠ 0 := by omega
      have hlt : u.log2 < q.log2 := by
        have hle : u.log2 ≤ q.log2 := (Nat.le_log2 hq).2 (Nat.le_trans (Nat.log2_self_le h0) h)
        omega
      have hu2 : u < Nat.pow 2 q.log2 := (Nat.log2_lt h0).1 hlt
      have hdvd : ulp q ∣ Nat.pow 2 q.log2 := Nat.pow_dvd_pow 2 (Nat.sub_le _ _)
      have hpow : Nat.pow 2 q.log2 ≤ q / ulp q * ulp q := le_div_mul_of_dvd hdvd (Nat.log2_self_le hq)
      omega

theorem div_le_roundHalfEven (num den : Nat) : num / den ≤ roundHalfEven num den := by
  unfold roundHalfEven
  dsimp only
  split
  · exact Nat.le_refl _
  · exact Nat.le_succ _

/-- Rounding does not pass a whole quotient from below. -/
theorem roundHalfEven_le_of_le {num den k : Nat} (hd : 0 < den) (h : num ≤ k * den) : roundHalfEven num den ≤ k := by
  by_cases he : num = k * den
  · have hr : roundHalfEven num den = k := by rw [he, roundHalfEven_mul hd]
    exact Nat.le_of_eq hr
  · have hlt : num / den < k := (Nat.div_lt_iff_lt_mul hd).2 (by omega)
    have := roundHalfEven_le num den
    omega

theorem le_roundUnits {u num den : Nat} (hu : ulp u ∣ u) (hd : 0 < den) (h : u * den ≤ num) :
    u ≤ roundUnits num den := by
  have hq : u ≤ num / den := (Nat.le_div_iff_mul_le hd).2 h
  have hcut := le_div_mul_ulp hu hq
  rw [Nat.div_div_eq_div_mul] at hcut
  exact Nat.le_trans hcut (Nat.mul_le_mul_right _ (div_le_roundHalfEven _ _))

theorem roundUnits_le_of_le {u num den : Nat} (hu : ulp u ∣ u) (hd : 0 < den) (h : num ≤ u * den) :
    roundUnits num den ≤ u := by
  have hq : num / den ≤ u := Nat.div_le_of_le_mul (by rwa [Nat.mul_comm] at h)
  obtain ⟨k, hk⟩ := Nat.dvd_trans (ulp_dvd_ulp hq) hu
  have hgap : 0 < ulp (num / den) := Nat.pow_pos (by decide)
  unfold roundUnits
  dsimp only
  generalize ulp (num / den) = g at hk hgap
  subst hk
  have hr : roundHalfEven num (den * g) ≤ k := by
    refine roundHalfEven_le_of_le (Nat.mul_pos hd hgap) ?_
    calc num ≤ g * k * den := h
      _ = k * (den * g) := by rw [Nat.mul_comm g k, Nat.mul_assoc, Nat.mul_comm g den]
  rw [Nat.mul_comm g k]
  exact Nat.mul_le_mul_right g hr

namespace Double

theorem isFinite_ofRatio {negative : Bool} {num den : Nat} (h : roundUnits (num * unitsPerOne) den < unitsLimit) :
    (ofRatio negative num den).isFinite = true := by
  unfold ofRatio
  dsimp only
  rw [dif_pos ⟨ulp_dvd_roundUnits _ _, h⟩]
  rfl

/-- An integer below 2⁶⁴ rounds to a finite double. -/
theorem isFinite_ofInt {n : Int} (h : n.natAbs < Nat.pow 2 64) : (ofInt n).isFinite = true := by
  refine isFinite_ofRatio ?_
  have hone : 0 < unitsPerOne := by decide +kernel
  have he : Nat.pow 2 64 * unitsPerOne = Nat.pow 2 (53 + 1085) := by decide +kernel
  have hlimit : Nat.pow 2 (53 + 1085) < unitsLimit := by decide +kernel
  have hq : n.natAbs * unitsPerOne / 1 < Nat.pow 2 (53 + 1085) := by
    rw [Nat.div_one, ← he]
    exact Nat.mul_lt_mul_of_pos_right h hone
  exact Nat.lt_of_le_of_lt (roundUnits_le hq) hlimit

end Double

/-- **Every number token has a finite double next to it.** -/
theorem Number.isFinite_toDouble (n : Number) : n.toDouble.isFinite = true := by
  cases n with
  | integer n fits =>
    have hn : n.natAbs < 18446744073709551616 := by
      unfold FitsInteger at fits
      omega
    exact Double.isFinite_ofInt hn
  | double x => rfl

end Assay
