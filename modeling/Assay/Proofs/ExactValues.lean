import Assay.Proofs.Rounding
import Assay.Proofs.Satisfaction
import Mathlib.Algebra.Order.Field.Basic
import Mathlib.Algebra.Order.Field.Rat
import Mathlib.Data.Int.CharZero
/-!
# Exact values

Numbers are compared as doubles, and an integer of 64 bits need not be one.  Rounding does not carry it past a double
(`Number.exists_toDouble`), so that it is still compared as its exact value with every double but the one that it is
carried to; and there a comparison errs when the number comes from outside to a bound that it may equal, or from inside
to one that it may not (`Bound.MissedAsLower`, `Bound.MissedAsUpper`).  A range with a bound that is missed answers
wrongly, and any other as the exact values say (`Constraint.allows_number_exact_iff`).
-/
namespace Assay

theorem Double.exists_ofInt {n : Int} {z : FiniteDouble} (h : Double.ofInt n = .finite z) :
    z.negative = decide (n < 0) ∧ z.units = roundUnits (n.natAbs * unitsPerOne) 1 := by
  unfold Double.ofInt Double.ofRatio at h
  dsimp only at h
  split at h
  · cases h
    exact ⟨rfl, rfl⟩
  · cases h

/-- The exact value of a finite double. -/
def FiniteDouble.value (x : FiniteDouble) : ℚ := x.signedUnits / unitsPerOne

/-- The exact value of a number token. -/
def Number.value : Number → ℚ
  | .integer n _ => n
  | .double x => x.value

theorem cast_unitsPerOne_pos : (0 : ℚ) < unitsPerOne := Nat.cast_pos.2 unitsPerOne_pos

namespace Number

theorem value_eq (t : Number) : t.value = t.exact / unitsPerOne := by
  cases t with
  | double x => rfl
  | integer n fits =>
    have hne : (unitsPerOne : ℚ) ≠ 0 := ne_of_gt cast_unitsPerOne_pos
    rw [value, exact, Int.cast_mul, Int.cast_natCast, mul_div_cancel_right₀ _ hne]

variable {t : Number} {y : FiniteDouble}

theorem value_lt_iff : t.value < y.value ↔ t.exact < y.signedUnits := by
  rw [t.value_eq, FiniteDouble.value, div_lt_div_iff_of_pos_right cast_unitsPerOne_pos, Int.cast_lt]

theorem lt_value_iff : y.value < t.value ↔ y.signedUnits < t.exact := by
  rw [t.value_eq, FiniteDouble.value, div_lt_div_iff_of_pos_right cast_unitsPerOne_pos, Int.cast_lt]

theorem value_eq_iff : t.value = y.value ↔ t.exact = y.signedUnits := by
  rw [t.value_eq, FiniteDouble.value, div_left_inj' (ne_of_gt cast_unitsPerOne_pos), Int.cast_inj]

theorem value_eq_intCast_iff {m : ℤ} : t.value = m ↔ t.exact = m * unitsPerOne := by
  have hone : (unitsPerOne : ℚ) = ((unitsPerOne : ℤ) : ℚ) := (Int.cast_natCast unitsPerOne).symm
  rw [t.value_eq, div_eq_iff (ne_of_gt cast_unitsPerOne_pos), hone, ← Int.cast_mul, Int.cast_inj]

/-- A number token is whole when its exact value is an integer. -/
theorem whole_iff : t.Whole ↔ ∃ m : ℤ, t.value = m := exists_congr fun _ => value_eq_intCast_iff.symm

end Number

/-- **Rounding does not carry a number past a double**: the double that stands for a number token is at most a double
that is at least the number, and at least one that is at most the number. -/
theorem Number.exists_toDouble (t : Number) : ∃ z : FiniteDouble, t.toDouble = .finite z ∧
    ∀ y : FiniteDouble, (y.signedUnits ≤ t.exact → y.signedUnits ≤ z.signedUnits) ∧
      (t.exact ≤ y.signedUnits → z.signedUnits ≤ y.signedUnits) := by
  cases t with
  | double x => exact ⟨x, rfl, fun y => ⟨id, id⟩⟩
  | integer n fits =>
    have hfinite := isFinite_toDouble (.integer n fits)
    obtain ⟨z, hz⟩ : ∃ z, Double.ofInt n = .finite z := by
      rw [toDouble] at hfinite
      cases hz : Double.ofInt n with
      | finite z => exact ⟨z, rfl⟩
      | _ => rw [hz] at hfinite; cases hfinite
    refine ⟨z, hz, fun y => ?_⟩
    obtain ⟨hsign, hunits⟩ := Double.exists_ofInt hz
    have hexact : (integer n fits).exact = if n < 0 then -((n.natAbs * unitsPerOne : Nat) : Int)
        else ((n.natAbs * unitsPerOne : Nat) : Int) := by
      rw [exact, Int.natCast_mul]
      split
      · rw [← Int.neg_mul]
        congr 1
        omega
      · congr 1
        omega
    generalize n.natAbs * unitsPerOne = magnitude at hunits hexact
    have hbelow : y.units ≤ magnitude → y.units ≤ z.units := by
      intro h
      rw [hunits]
      exact le_roundUnits y.representable.1 Nat.one_pos (by omega)
    have habove : magnitude ≤ y.units → z.units ≤ y.units := by
      intro h
      rw [hunits]
      exact roundUnits_le_of_le y.representable.1 Nat.one_pos (by omega)
    rw [hexact]
    unfold FiniteDouble.signedUnits
    rw [hsign]
    -- both have the sign of the integer, or they lie on the two sides of zero
    by_cases hn : n < 0
    · rw [decide_eq_true hn, if_pos rfl, if_pos hn]
      by_cases hy : y.negative = true
      · rw [if_pos hy]
        omega
      · rw [if_neg hy]
        omega
    · rw [decide_eq_false hn, if_neg Bool.false_ne_true, if_neg hn]
      by_cases hy : y.negative = true
      · rw [if_pos hy]
        omega
      · rw [if_neg hy]
        omega

/-- The number is not the double, but the double stands for it. -/
def Number.CarriedTo (t : Number) (y : FiniteDouble) : Prop := (t.toDouble == .finite y) = true ∧ t.value ≠ y.value

/-- `p` lies before `q`, or on it if that is allowed. -/
def Precedes (inclusive : Bool) (p q : ℚ) : Prop := p < q ∨ inclusive = true ∧ p = q

/-- **The exact value satisfies the range**: it is whole if it has to be, and on the right side of each end by the
operator there. -/
structure Kind.Contains (k : Kind) (min max : Option Bound) (q : ℚ) : Prop where
  whole : k = .integer → ∃ m : ℤ, q = m
  above : ∀ b y, min = some b → b.value = .finite y → Precedes b.inclusive y.value q
  below : ∀ b y, max = some b → b.value = .finite y → Precedes b.inclusive q y.value

namespace Bound

/-- As a lower bound it errs on the number: this is carried to it, from outside if it may be equal and from inside if it
may not. -/
def MissedAsLower (b : Bound) (t : Number) : Prop :=
  ∃ y, b.value = .finite y ∧ t.CarriedTo y ∧ (b.inclusive = true ↔ t.value < y.value)

/-- As an upper bound it errs on the number. -/
def MissedAsUpper (b : Bound) (t : Number) : Prop :=
  ∃ y, b.value = .finite y ∧ t.CarriedTo y ∧ (b.inclusive = true ↔ y.value < t.value)

end Bound

section Compared

variable {t : Number} {y z : FiniteDouble} {b : Bound}

theorem beq_finite_iff : (Double.finite z == Double.finite y) = true ↔ z.signedUnits = y.signedUnits := by
  rw [Double.beq_iff]
  simp [Double.place?, eq_comm]

theorem carriedTo_iff (hz : t.toDouble = .finite z) :
    t.CarriedTo y ↔ z.signedUnits = y.signedUnits ∧ t.exact ≠ y.signedUnits := by
  unfold Number.CarriedTo
  rw [hz, beq_finite_iff, ne_eq, Number.value_eq_iff]

theorem precedes_value_iff {inclusive : Bool} : Precedes inclusive y.value t.value ↔
    y.signedUnits < t.exact ∨ inclusive = true ∧ y.signedUnits = t.exact := by
  unfold Precedes
  rw [Number.lt_value_iff, @eq_comm _ y.value, Number.value_eq_iff, @eq_comm _ y.signedUnits]

theorem value_precedes_iff {inclusive : Bool} : Precedes inclusive t.value y.value ↔
    t.exact < y.signedUnits ∨ inclusive = true ∧ t.exact = y.signedUnits := by
  unfold Precedes
  rw [Number.value_lt_iff, Number.value_eq_iff]

theorem admitsAbove_finite_iff (hb : b.value = .finite y) : b.admitsAbove (.finite z) = true ↔
    y.signedUnits < z.signedUnits ∨ b.inclusive = true ∧ y.signedUnits = z.signedUnits := by
  rw [Bound.admitsAbove_iff, Bound.Below, hb]
  simp [Double.place?]

theorem admitsBelow_finite_iff (hb : b.value = .finite y) : b.admitsBelow (.finite z) = true ↔
    z.signedUnits < y.signedUnits ∨ b.inclusive = true ∧ z.signedUnits = y.signedUnits := by
  rw [Bound.admitsBelow_iff, Bound.Above, hb]
  simp [Double.place?]

theorem missedAsLower_iff (hb : b.value = .finite y) (hz : t.toDouble = .finite z) : b.MissedAsLower t ↔
    z.signedUnits = y.signedUnits ∧ t.exact ≠ y.signedUnits ∧ (b.inclusive = true ↔ t.exact < y.signedUnits) := by
  unfold Bound.MissedAsLower
  simp [hb, carriedTo_iff hz, Number.value_lt_iff, and_assoc]

theorem missedAsUpper_iff (hb : b.value = .finite y) (hz : t.toDouble = .finite z) : b.MissedAsUpper t ↔
    z.signedUnits = y.signedUnits ∧ t.exact ≠ y.signedUnits ∧ (b.inclusive = true ↔ y.signedUnits < t.exact) := by
  unfold Bound.MissedAsUpper
  simp [hb, carriedTo_iff hz, Number.lt_value_iff, and_assoc]

/-- **A lower bound is compared exactly unless it errs.** -/
theorem admitsAbove_exact_iff (hb : b.value = .finite y) :
    (b.admitsAbove t.toDouble = true ↔ Precedes b.inclusive y.value t.value) ↔ ¬b.MissedAsLower t := by
  obtain ⟨z, hz, hside⟩ := t.exists_toDouble
  obtain ⟨hbelow, habove⟩ := hside y
  rw [missedAsLower_iff hb hz, hz, admitsAbove_finite_iff hb, precedes_value_iff]
  cases b.inclusive <;> simp <;> omega

/-- **An upper bound is compared exactly unless it errs.** -/
theorem admitsBelow_exact_iff (hb : b.value = .finite y) :
    (b.admitsBelow t.toDouble = true ↔ Precedes b.inclusive t.value y.value) ↔ ¬b.MissedAsUpper t := by
  obtain ⟨z, hz, hside⟩ := t.exists_toDouble
  obtain ⟨hbelow, habove⟩ := hside y
  rw [missedAsUpper_iff hb hz, hz, admitsBelow_finite_iff hb, value_precedes_iff]
  cases b.inclusive <;> simp <;> omega

/-- A double is carried nowhere. -/
theorem exists_integer_of_carriedTo (h : t.CarriedTo y) : ∃ n fits, t = .integer n fits := by
  cases t with
  | integer n fits => exact ⟨n, fits, rfl⟩
  | double x =>
    obtain ⟨he, hne⟩ := (carriedTo_iff rfl).1 h
    exact absurd he hne

variable {lo hi : Bound} {k : Kind} {min max : Option Bound}

/-- What lies between two ends. -/
theorem ends_of_fits (hf : RangeFits k (some lo) (some hi)) (hlo : lo.value = .finite y) (hhi : hi.value = .finite z) :
    y.signedUnits < z.signedUnits ∨
      y.signedUnits = z.signedUnits ∧ lo.inclusive = true ∧ hi.inclusive = true := by
  refine (hf.nonempty lo hi rfl rfl).imp (fun h => ?_) fun h => ?_
  · rw [hlo, hhi, Double.lt_iff] at h
    simpa [Double.place?] using h
  · rwa [hlo, hhi, beq_finite_iff] at h

/-- **Where the lower bound errs the upper one does not**, and both ways of comparing let the number pass it. -/
theorem upper_of_missedAsLower (hf : RangeFits k (some lo) (some hi)) (hlo : lo.value = .finite y)
    (hhi : hi.value = .finite z) (h : lo.MissedAsLower t) :
      hi.admitsBelow t.toDouble = true ∧ Precedes hi.inclusive t.value z.value := by
  obtain ⟨x, hx, hside⟩ := t.exists_toDouble
  obtain ⟨hbelow, habove⟩ := hside z
  rw [missedAsLower_iff hlo hx] at h
  have hends := ends_of_fits hf hlo hhi
  rw [hx, admitsBelow_finite_iff hhi, value_precedes_iff]
  cases hl : lo.inclusive <;> cases hu : hi.inclusive <;> simp [hl, hu] at h hends ⊢ <;> omega

theorem lower_of_missedAsUpper (hf : RangeFits k (some lo) (some hi)) (hlo : lo.value = .finite y)
    (hhi : hi.value = .finite z) (h : hi.MissedAsUpper t) :
      lo.admitsAbove t.toDouble = true ∧ Precedes lo.inclusive y.value t.value := by
  obtain ⟨x, hx, hside⟩ := t.exists_toDouble
  obtain ⟨hbelow, habove⟩ := hside y
  rw [missedAsUpper_iff hhi hx] at h
  have hends := ends_of_fits hf hlo hhi
  rw [hx, admitsAbove_finite_iff hlo, precedes_value_iff]
  cases hl : lo.inclusive <;> cases hu : hi.inclusive <;> simp [hl, hu] at h hends ⊢ <;> omega

end Compared

/-- A bound of the range errs on the number. -/
def Missed (min max : Option Bound) (t : Number) : Prop :=
  (∃ b, min = some b ∧ b.MissedAsLower t) ∨ ∃ b, max = some b ∧ b.MissedAsUpper t

section Ranges

variable {t : Number} {k : Kind} {min max : Option Bound}

theorem Bound.Fits.exists_finite {b : Bound} (h : b.Fits k) : ∃ y, b.value = .finite y := by
  have hf := h.finite
  cases hv : b.value with
  | finite y => exact ⟨y, rfl⟩
  | _ => rw [hv] at hf; cases hf

theorem RangeFits.exists_finite (hf : RangeFits k min max) {b : Bound} (hb : min = some b ∨ max = some b) :
    ∃ y, b.value = .finite y :=
  (hf.fits b hb).exists_finite

theorem admitsWithin_number_iff (hk : k = .number ∨ k = .integer) : k.admitsWithin min max (.number t) = true ↔
    (k = .integer → ∃ m : ℤ, t.value = m) ∧ min.all (·.admitsAbove t.toDouble) = true ∧
      max.all (·.admitsBelow t.toDouble) = true := by
  rw [← Number.whole_iff, ← Number.isIntegral_iff]
  unfold Kind.admitsWithin Kind.measure?
  rcases hk with rfl | rfl
  · simp
  · cases h : t.isIntegral <;> simp [h]

/-- A bound that is there is finite, so what is asked of its value is asked of one. -/
theorem forall_finite_iff {P : Bound → FiniteDouble → Prop} {b : Bound} {y : FiniteDouble} (hy : b.value = .finite y) :
    (∀ b' y', some b = some b' → b'.value = .finite y' → P b' y') ↔ P b y := by
  constructor
  · intro h
    exact h b y rfl hy
  · rintro h b' y' ⟨⟩ hy'
    cases hy.symm.trans hy'
    exact h

theorem all_admitsAbove_iff (hf : RangeFits k min max) :
    (min.all (·.admitsAbove t.toDouble) = true ↔
      ∀ b y, min = some b → b.value = .finite y → Precedes b.inclusive y.value t.value) ↔
        ¬∃ b, min = some b ∧ b.MissedAsLower t := by
  cases min with
  | none => simp
  | some b =>
    obtain ⟨y, hy⟩ := hf.exists_finite (Or.inl rfl)
    rw [forall_finite_iff hy, Option.all_some, admitsAbove_exact_iff hy]
    simp

theorem all_admitsBelow_iff (hf : RangeFits k min max) :
    (max.all (·.admitsBelow t.toDouble) = true ↔
      ∀ b y, max = some b → b.value = .finite y → Precedes b.inclusive t.value y.value) ↔
        ¬∃ b, max = some b ∧ b.MissedAsUpper t := by
  cases max with
  | none => simp
  | some b =>
    obtain ⟨y, hy⟩ := hf.exists_finite (Or.inr rfl)
    rw [forall_finite_iff hy, Option.all_some, admitsBelow_exact_iff hy]
    simp

/-- Where the lower bound errs, the number passes the upper one. -/
theorem all_admitsBelow_of_missed (hf : RangeFits k min max) {b : Bound} (hb : min = some b) (h : b.MissedAsLower t) :
    max.all (·.admitsBelow t.toDouble) = true ∧
      ∀ b y, max = some b → b.value = .finite y → Precedes b.inclusive t.value y.value := by
  subst hb
  cases max with
  | none => simp
  | some hi =>
    obtain ⟨y, hy⟩ := hf.exists_finite (Or.inl rfl)
    obtain ⟨z, hz⟩ := hf.exists_finite (Or.inr rfl)
    rw [forall_finite_iff hz]
    exact upper_of_missedAsLower hf hy hz h

/-- Where the upper bound errs, the number passes the lower one. -/
theorem all_admitsAbove_of_missed (hf : RangeFits k min max) {b : Bound} (hb : max = some b) (h : b.MissedAsUpper t) :
    min.all (·.admitsAbove t.toDouble) = true ∧
      ∀ b y, min = some b → b.value = .finite y → Precedes b.inclusive y.value t.value := by
  subst hb
  cases min with
  | none => simp
  | some lo =>
    obtain ⟨y, hy⟩ := hf.exists_finite (Or.inl rfl)
    obtain ⟨z, hz⟩ := hf.exists_finite (Or.inr rfl)
    rw [forall_finite_iff hy]
    exact lower_of_missedAsUpper hf hy hz h

/-- A number on which a bound errs is an integer. -/
theorem Missed.exists_int (h : Missed min max t) : ∃ m : ℤ, t.value = m := by
  have hc : ∃ y, t.CarriedTo y := by
    rcases h with ⟨b, -, y, -, hc, -⟩ | ⟨b, -, y, -, hc, -⟩
    · exact ⟨y, hc⟩
    · exact ⟨y, hc⟩
  obtain ⟨y, hc⟩ := hc
  obtain ⟨n, fits, rfl⟩ := exists_integer_of_carriedTo hc
  exact ⟨n, rfl⟩

theorem contains_iff {q : ℚ} : k.Contains min max q ↔ (k = .integer → ∃ m : ℤ, q = m) ∧
    (∀ b y, min = some b → b.value = .finite y → Precedes b.inclusive y.value q) ∧
      ∀ b y, max = some b → b.value = .finite y → Precedes b.inclusive q y.value :=
  ⟨fun h => ⟨h.whole, h.above, h.below⟩, fun ⟨hw, ha, hb⟩ => ⟨hw, ha, hb⟩⟩

/-- **A range is decided by exact values unless a bound errs.**  If one does, the other lets the number pass, whichever
way it is compared, so that the answer is wrong. -/
theorem admitsWithin_exact_iff (hk : k = .number ∨ k = .integer) (hf : RangeFits k min max) :
    (k.admitsWithin min max (.number t) = true ↔ k.Contains min max t.value) ↔ ¬Missed min max t := by
  have hlower := all_admitsAbove_iff (t := t) hf
  have hupper := all_admitsBelow_iff (t := t) hf
  rw [admitsWithin_number_iff hk, contains_iff]
  by_cases hl : ∃ b, min = some b ∧ b.MissedAsLower t
  · have hm : Missed min max t := Or.inl hl
    have herr := mt hlower.1 (not_not_intro hl)
    obtain ⟨b, hb, hbl⟩ := hl
    obtain ⟨hu, hu'⟩ := all_admitsBelow_of_missed hf hb hbl
    rw [iff_true_intro fun _ : k = .integer => hm.exists_int, iff_true_intro hu', hu]
    simp only [true_and, and_true, hm, not_true, iff_false]
    exact herr
  by_cases hu : ∃ b, max = some b ∧ b.MissedAsUpper t
  · have hm : Missed min max t := Or.inr hu
    have herr := mt hupper.1 (not_not_intro hu)
    obtain ⟨b, hb, hbu⟩ := hu
    obtain ⟨hl, hl'⟩ := all_admitsAbove_of_missed hf hb hbu
    rw [iff_true_intro fun _ : k = .integer => hm.exists_int, iff_true_intro hl', hl]
    simp only [true_and, hm, not_true, iff_false]
    exact herr
  · have hm : ¬Missed min max t := not_or.2 ⟨hl, hu⟩
    rw [hlower.2 hl, hupper.2 hu]
    simpa using hm

/-- An integer up to 2^53 is a double itself. -/
theorem not_carriedTo_of_natAbs_le {n : Int} {fits : FitsInteger n}
    (hn : n.natAbs ≤ Nat.pow 2 53) (y : FiniteDouble) : ¬(Number.integer n fits).CarriedTo y := by
  intro hc
  obtain ⟨z, hz, hside⟩ := (Number.integer n fits).exists_toDouble
  obtain ⟨he, hne⟩ := (carriedTo_iff hz).1 hc
  have hlt : n.natAbs * unitsPerOne < unitsLimit := by
    have hlimit : Nat.pow 2 53 * unitsPerOne < unitsLimit := by decide +kernel
    exact Nat.lt_of_le_of_lt (Nat.mul_le_mul_right unitsPerOne hn) hlimit
  have hulp : ulp (n.natAbs * unitsPerOne) ∣ n.natAbs * unitsPerOne := by
    obtain ⟨k, hk⟩ : ∃ k, unitsPerOne = Nat.pow 2 k := by
      unfold unitsPerOne
      exact ⟨_, Eq.refl _⟩
    rw [hk]
    exact ulp_dvd_mul_pow hn
  let w : FiniteDouble := ⟨decide (n < 0), n.natAbs * unitsPerOne, hulp, hlt⟩
  have hw : w.signedUnits = (Number.integer n fits).exact := by
    show (if decide (n < 0) = true then _ else _) = n * unitsPerOne
    rw [Int.natCast_mul]
    by_cases h : n < 0
    · rw [if_pos (decide_eq_true h), ← Int.neg_mul]
      congr 1
      omega
    · rw [if_neg (by simpa using h)]
      congr 1
      omega
  obtain ⟨hbelow, habove⟩ := hside w
  omega

/-- **Neither a double nor a number up to 2^53 is carried.** -/
theorem not_carriedTo (h : (∃ x, t = .double x) ∨ |t.value| ≤ 2 ^ 53) (y : FiniteDouble) : ¬t.CarriedTo y := by
  intro hc
  obtain ⟨n, fits, rfl⟩ := exists_integer_of_carriedTo hc
  have hn : n.natAbs ≤ Nat.pow 2 53 := by
    rcases h with ⟨x, hx⟩ | h
    · cases hx
    · have hq : |(n : ℚ)| ≤ ((2 ^ 53 : ℤ) : ℚ) := by
        rw [Int.cast_pow]
        exact h
      rw [← Int.cast_abs, Int.cast_le, Int.abs_eq_natAbs] at hq
      exact Int.ofNat_le.1 hq
  exact not_carriedTo_of_natAbs_le hn y hc

theorem not_missed (h : ∀ y, ¬t.CarriedTo y) : ¬Missed min max t := by
  rintro (⟨b, -, y, -, hc, -⟩ | ⟨b, -, y, -, hc, -⟩)
  · exact h y hc
  · exact h y hc

/-- **When numbers are compared exactly.**  A range that fits answers as the exact values say for all numbers but those
that one of its bounds misses, and a literal for all but those that are carried to it; among doubles and up to 2^53
there are none. -/
theorem Constraint.allows_number_exact_iff (follow : String → Json → Bool) (t : Number) :
    (∀ k min max, k = .number ∨ k = .integer → (range k min max).check = .ok () →
      (((range k min max).allows follow (.number t) = true ↔ k.Contains min max t.value) ↔ ¬Missed min max t)) ∧
    (∀ x : FiniteDouble,
      (((literal (.number (.finite x))).allows follow (.number t) = true ↔ t.value = x.value) ↔ ¬t.CarriedTo x)) ∧
    ((∃ x, t = .double x) ∨ |t.value| ≤ 2 ^ 53 →
      (∀ x, ¬t.CarriedTo x) ∧ ∀ min max, ¬Missed min max t) := by
  refine ⟨fun k min max hk hc => ?_, fun x => ?_, fun h => ?_⟩
  · rw [allows]
    exact admitsWithin_exact_iff hk (checkRange_eq_ok_iff.1 hc)
  · rw [allows]
    show ((t.toDouble == .finite x) = true ↔ t.value = x.value) ↔
      ¬((t.toDouble == .finite x) = true ∧ t.value ≠ x.value)
    -- the double of the value of `x` is `x`
    have hx : t.value = x.value → (t.toDouble == .finite x) = true := by
      intro h
      obtain ⟨z, hz, hside⟩ := t.exists_toDouble
      obtain ⟨hbelow, habove⟩ := hside x
      rw [Number.value_eq_iff] at h
      rw [hz, beq_finite_iff]
      omega
    by_cases hv : t.value = x.value
    · simp [hv, hx hv]
    · simp [hv]
  · have hc := not_carriedTo h
    exact ⟨hc, fun min max => not_missed hc⟩

end Ranges

/-- The number 2^53. -/
def twoPow53 : FiniteDouble := ⟨false, Nat.pow 2 53 * unitsPerOne, by decide +kernel⟩

/-- The integer after 2^53, which is no double. -/
def pastTwoPow53 : Number := .integer 9007199254740993 (by decide)

theorem pastTwoPow53_carriedTo : pastTwoPow53.CarriedTo twoPow53 := by
  refine ⟨by decide +kernel, fun h => ?_⟩
  rw [Number.value_eq_iff] at h
  exact absurd h (by decide +kernel)

theorem twoPow53_lt_pastTwoPow53 : twoPow53.value < pastTwoPow53.value :=
  Number.lt_value_iff.2 (by decide +kernel)

namespace Constraint

variable {x : FiniteDouble} {inclusive : Bool}

theorem check_range_above : (range .integer (some ⟨.finite x, inclusive⟩) none).check = .ok () := by
  have hf : RangeFits .integer (some ⟨.finite x, inclusive⟩) none := by
    refine ⟨Kind.noConfusion, fun b hb => ?_, fun lo hi _ h => nomatch h⟩
    obtain rfl := Option.some.inj (hb.resolve_right nofun)
    exact ⟨rfl, nofun⟩
  exact checkRange_eq_ok_iff.2 hf

theorem check_range_below : (range .integer none (some ⟨.finite x, inclusive⟩)).check = .ok () := by
  have hf : RangeFits .integer none (some ⟨.finite x, inclusive⟩) := by
    refine ⟨Kind.noConfusion, fun b hb => ?_, fun lo hi h => nomatch h⟩
    obtain rfl := Option.some.inj (hb.resolve_left nofun)
    exact ⟨rfl, nofun⟩
  exact checkRange_eq_ok_iff.2 hf

theorem allows_number_exact_iff_pastTwoPow53 :
    (range .integer (some ⟨.finite twoPow53, true⟩) none).check = .ok () ∧
      ((range .integer (some ⟨.finite twoPow53, true⟩) none).allows (fun _ _ => false) (.number pastTwoPow53) = true ↔
        Kind.integer.Contains (some ⟨.finite twoPow53, true⟩) none pastTwoPow53.value) ∧
      ¬((literal (.number (.finite twoPow53))).allows (fun _ _ => false) (.number pastTwoPow53) = true ↔
        pastTwoPow53.value = twoPow53.value) ∧
      ∀ x, ¬(Number.double twoPow53).CarriedTo x := by
  obtain ⟨hrange, hliteral, -⟩ := allows_number_exact_iff (fun _ _ => false) pastTwoPow53
  obtain ⟨-, -, hsmall⟩ := allows_number_exact_iff (fun _ _ => false) (.double twoPow53)
  have hnot : ¬Missed (some ⟨.finite twoPow53, true⟩) none pastTwoPow53 := by
    rintro (⟨b, hb, y, hy, -, hside⟩ | ⟨b, hb, -⟩)
    · obtain rfl := Option.some.inj hb
      obtain rfl := Double.finite.inj hy
      exact absurd (hside.1 rfl) (not_lt_of_gt twoPow53_lt_pastTwoPow53)
    · cases hb
  have hexact := (hrange .integer _ _ (Or.inr rfl) check_range_above).2 hnot
  refine ⟨check_range_above, hexact, fun h => ?_, (hsmall (Or.inl ⟨_, rfl⟩)).1⟩
  exact (hliteral twoPow53).1 h pastTwoPow53_carriedTo

/-- **An integer strictly beyond a bound may be refused**, an upper bound may be passed, and a literal may admit another
number. -/
theorem pastTwoPow53_misjudged :
    (range .integer (some ⟨.finite twoPow53, false⟩) none).check = .ok () ∧
      Kind.integer.Contains (some ⟨.finite twoPow53, false⟩) none pastTwoPow53.value ∧
      (range .integer (some ⟨.finite twoPow53, false⟩) none).allows (fun _ _ => false) (.number pastTwoPow53) = false ∧
      (range .integer none (some ⟨.finite twoPow53, true⟩)).check = .ok () ∧
      ¬Kind.integer.Contains none (some ⟨.finite twoPow53, true⟩) pastTwoPow53.value ∧
      (range .integer none (some ⟨.finite twoPow53, true⟩)).allows (fun _ _ => false) (.number pastTwoPow53) = true ∧
      (literal (.number (.finite twoPow53))).allows (fun _ _ => false) (.number pastTwoPow53) = true ∧
      pastTwoPow53.value ≠ twoPow53.value := by
  have hlt := twoPow53_lt_pastTwoPow53
  have hlower : Kind.integer.Contains (some ⟨.finite twoPow53, false⟩) none pastTwoPow53.value := by
    refine ⟨fun _ => ⟨_, rfl⟩, fun b y hb hy => ?_, fun b y hb => nomatch hb⟩
    obtain rfl := Option.some.inj hb
    obtain rfl := Double.finite.inj hy
    exact Or.inl hlt
  have hupper : ¬Kind.integer.Contains none (some ⟨.finite twoPow53, true⟩) pastTwoPow53.value := by
    intro h
    rcases h.below _ _ rfl rfl with hbelow | ⟨-, heq⟩
    · exact absurd hbelow (not_lt_of_gt hlt)
    · exact ne_of_gt hlt heq
  exact ⟨check_range_above, hlower, by decide +kernel, check_range_below, hupper, by decide +kernel, by decide +kernel,
    ne_of_gt hlt⟩

end Constraint

end Assay
