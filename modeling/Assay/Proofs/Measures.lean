import Assay.Proofs.ExactValues
/-!
# What kinds measure

A range looks at what a value measures as a double: a number, a whole number, or the length of a text.  Whole numbers
and lengths are rounded to doubles that are whole again, so that the doubles which measure something are known for each
kind (`Kind.HasMeasure`, `Kind.Measures.cases_double`), and each of them does (`Kind.HasMeasure.exists_value`).  So a
range has a value exactly when it reaches a measure (`Kind.exists_admitsWithin_iff`).  That something lies between its
ends is not enough for this, as the range may be hollow; but it is not with an inclusive end that is a measure itself
(`Kind.not_hollow_of_inclusive`).
-/
namespace Assay

/-- The magnitude of an integer is rounded to that of an integer: it lies on the grid, or the gap of the grid is
whole. -/
theorem unitsPerOne_dvd_roundUnits (m : Nat) : unitsPerOne ∣ roundUnits (m * unitsPerOne) 1 := by
  obtain ⟨k, hk⟩ : ∃ k, unitsPerOne = Nat.pow 2 k := by
    unfold unitsPerOne
    exact ⟨_, Eq.refl _⟩
  unfold roundUnits
  dsimp only
  rw [Nat.div_one, Nat.one_mul, hk, ulp]
  have hgap : 0 < Nat.pow 2 ((m * Nat.pow 2 k).log2 - 52) := Nat.pow_pos (by decide)
  generalize (m * Nat.pow 2 k).log2 - 52 = g at hgap
  rcases Nat.le_total g k with hle | hle
  · obtain ⟨q, hq⟩ : Nat.pow 2 g ∣ m * Nat.pow 2 k := Nat.dvd_mul_left_of_dvd (Nat.pow_dvd_pow 2 hle) m
    have hr : roundHalfEven (m * Nat.pow 2 k) (Nat.pow 2 g) * Nat.pow 2 g = m * Nat.pow 2 k := by
      rw [hq, Nat.mul_comm (Nat.pow 2 g) q, roundHalfEven_mul hgap]
    rw [hr]
    exact Nat.dvd_mul_left _ _
  · exact Nat.dvd_mul_left_of_dvd (Nat.pow_dvd_pow 2 hle) _

/-- **An integer is rounded to a whole double**, which is negative only if it is. -/
theorem Double.isIntegral_of_ofInt {n : Int} {z : FiniteDouble} (h : Double.ofInt n = .finite z) :
    z.isIntegral = true ∧ (0 ≤ n → 0 ≤ z.signedUnits) := by
  obtain ⟨hsign, hunits⟩ := Double.exists_ofInt h
  refine ⟨?_, fun hn => ?_⟩
  · rw [FiniteDouble.isIntegral_iff_dvd, hunits]
    exact unitsPerOne_dvd_roundUnits _
  · have hpos : z.negative = false := by
      rw [hsign]
      exact decide_eq_false (by omega)
    unfold FiniteDouble.signedUnits
    rw [hpos]
    simp

/-- What a natural number is rounded to, if it is not past the doubles. -/
theorem Double.ofNat_cases (n : Nat) : (∃ y, Double.ofNat n = .finite y) ∨ Double.ofNat n = .infinite false := by
  have hsign : decide ((n : Int) < 0) = false := decide_eq_false (by omega)
  unfold Double.ofNat Double.ofInt Double.ofRatio
  dsimp only
  split
  · exact Or.inl ⟨_, rfl⟩
  · exact Or.inr (congrArg Double.infinite hsign)

namespace FiniteDouble

variable {x y : FiniteDouble}

theorem value_lt_value_iff : x.value < y.value ↔ x.signedUnits < y.signedUnits :=
  Number.value_lt_iff (t := .double x)

theorem value_eq_value_iff : x.value = y.value ↔ x.signedUnits = y.signedUnits :=
  Number.value_eq_iff (t := .double x)

theorem value_zero : zero.value = 0 := (Number.value_eq_intCast_iff (t := .double zero) (m := 0)).2 (by decide +kernel)

theorem value_nonneg_iff : 0 ≤ y.value ↔ 0 ≤ y.signedUnits := by
  unfold value
  rw [le_div_iff₀ cast_unitsPerOne_pos, zero_mul, Int.cast_nonneg_iff]

theorem isIntegral_iff_value : y.isIntegral = true ↔ ∃ m : ℤ, y.value = m := by
  have h := Number.whole_iff (t := .double y)
  rw [← Number.isIntegral_iff] at h
  exact h

theorem lt_finite_iff : (Double.finite x).lt (.finite y) = true ↔ x.value < y.value := by
  rw [value_lt_value_iff, Double.lt_iff]
  simp [Double.place?]

end FiniteDouble

namespace Bound

variable {b : Bound} {x y : FiniteDouble} {u v : Double}

theorem below_finite_iff (hb : b.value = .finite y) : b.Below (.finite x) ↔ Precedes b.inclusive y.value x.value := by
  rw [← admitsAbove_iff, admitsAbove_finite_iff hb]
  exact (precedes_value_iff (t := .double x)).symm

theorem above_finite_iff (hb : b.value = .finite y) : b.Above (.finite x) ↔ Precedes b.inclusive x.value y.value := by
  rw [← admitsBelow_iff, admitsBelow_finite_iff hb]
  exact (value_precedes_iff (t := .double x)).symm

theorem below_of_beq (h : (u == v) = true) (hb : b.Below v) : b.Below u := by
  unfold Below
  rw [Double.place?_eq_of_beq h]
  exact hb

theorem above_of_beq (h : (u == v) = true) (hb : b.Above v) : b.Above u := by
  unfold Above
  rw [Double.place?_eq_of_beq h]
  exact hb

/-- What is past all doubles is above any lower end. -/
theorem below_infinite (hb : b.value = .finite y) : b.Below (.infinite false) := by
  have hu := y.natAbs_signedUnits
  have hlt := y.representable.2
  refine ⟨y.signedUnits, unitsLimit, by rw [hb]; rfl, rfl, Or.inl ?_⟩
  omega

theorem not_above_infinite (hb : b.value = .finite y) : ¬b.Above (.infinite false) := by
  rintro ⟨i, j, hi, hj, h⟩
  have hu := y.natAbs_signedUnits
  have hlt := y.representable.2
  rw [hb] at hj
  have hi := Option.some.inj hi
  have hj := Option.some.inj hj
  omega

end Bound

section Precedes

variable {i j : Bool} {p q r : ℚ}

/-- Something lies between two ends if they are apart, or one and both inclusive. -/
theorem exists_precedes_iff :
    (∃ q, Precedes i p q ∧ Precedes j q r) ↔ p < r ∨ (p = r ∧ i = true ∧ j = true) := by
  constructor
  · rintro ⟨q, h | ⟨hi, rfl⟩, h' | ⟨hj, rfl⟩⟩
    · exact Or.inl (lt_trans h h')
    · exact Or.inl h
    · exact Or.inl h'
    · exact Or.inr ⟨rfl, hi, hj⟩
  · rintro (h | ⟨rfl, hi, hj⟩)
    · obtain ⟨q, h, h'⟩ := exists_between h
      exact ⟨q, Or.inl h, Or.inl h'⟩
    · exact ⟨p, Or.inr ⟨hi, rfl⟩, Or.inr ⟨hj, rfl⟩⟩

theorem Precedes.trans_left (h : Precedes i p q) (h' : Precedes j q r) : Precedes i p r :=
  (exists_precedes_iff.1 ⟨q, h, h'⟩).imp_right fun ⟨he, hi, _⟩ => ⟨hi, he⟩

theorem Precedes.trans_right (h : Precedes i p q) (h' : Precedes j q r) : Precedes j p r :=
  (exists_precedes_iff.1 ⟨q, h, h'⟩).imp_right fun ⟨he, _, hj⟩ => ⟨hj, he⟩

end Precedes

namespace Kind

/-- **The double measures some value of the kind**: a number, a whole number, or the length of a text. -/
structure HasMeasure (k : Kind) (y : FiniteDouble) : Prop where
  whole : k ≠ .number → ∃ m : ℤ, y.value = m
  nonneg : k = .string → 0 ≤ y.value

/-- **Some measure of the kind satisfies the range.**  The length of a text may also lie past all doubles. -/
def Reaches (k : Kind) (min max : Option Bound) : Prop :=
  (∃ y : FiniteDouble, k.HasMeasure y ∧ number.Contains min max y.value) ∨ (k = .string ∧ max = none)

/-- **Something lies between the ends, but no measure of the kind.** -/
def Hollow (k : Kind) (min max : Option Bound) : Prop :=
  (∃ q : ℚ, number.Contains min max q) ∧ ¬k.Reaches min max

variable {k : Kind} {min max : Option Bound} {v : Json} {x : Double} {y : FiniteDouble} {b : Bound}

/-- **What is measured of a value** is a measure of the kind, or an infinity for a text that is too long. -/
theorem Measures.cases_double (h : k.Measures v x) :
    (∃ y, x = .finite y ∧ k.HasMeasure y) ∨ (k = .string ∧ x = .infinite false) := by
  cases h with
  | length s =>
    refine (Double.ofNat_cases s.length).imp (fun ⟨y, hy⟩ => ?_) fun h => ⟨rfl, h⟩
    obtain ⟨hwhole, hpos⟩ := Double.isIntegral_of_ofInt hy
    exact ⟨y, hy, fun _ => FiniteDouble.isIntegral_iff_value.1 hwhole,
      fun _ => FiniteDouble.value_nonneg_iff.2 (hpos (by omega))⟩
  | number n =>
    obtain ⟨y, hy, -⟩ := n.exists_toDouble
    exact Or.inl ⟨y, hy, fun h => absurd rfl h, nofun⟩
  | @integer n hn =>
    obtain ⟨y, hy, -⟩ := n.exists_toDouble
    refine Or.inl ⟨y, hy, fun _ => ?_, nofun⟩
    cases n with
    | integer m fits => exact FiniteDouble.isIntegral_iff_value.1 (Double.isIntegral_of_ofInt hy).1
    | double d =>
      cases hy
      exact Number.whole_iff.1 hn

/-- A measure of the kind is measured of some value, a text of as many characters if need be. -/
theorem HasMeasure.exists_value (hk : k ≠ .boolean) (h : k.HasMeasure y) :
    ∃ v x, k.Measures v x ∧ (x == .finite y) = true := by
  cases k with
  | string =>
    obtain ⟨m, hm⟩ := h.whole nofun
    have hwhole := FiniteDouble.isIntegral_iff_value.2 ⟨m, hm⟩
    have hpos : 0 ≤ y.truncate :=
      Int.tdiv_nonneg (FiniteDouble.value_nonneg_iff.1 (h.nonneg rfl)) (Int.natCast_nonneg _)
    refine ⟨_, _, .length (String.ofList (List.replicate y.truncate.toNat 'a')), ?_⟩
    rw [String.length_ofList, List.length_replicate, Double.ofNat, Int.toNat_of_nonneg hpos]
    exact FiniteDouble.ofInt_truncate_beq hwhole
  | number => exact ⟨_, _, .number (.double y), Double.beq_self_of_isFinite rfl⟩
  | integer =>
    have hwhole : (Number.double y).Whole := Number.whole_iff.2 (h.whole nofun)
    exact ⟨_, _, .integer hwhole, Double.beq_self_of_isFinite rfl⟩
  | boolean => exact absurd rfl hk

/-- A double satisfies the ends as its exact value does. -/
theorem contains_value_iff (hf : ∀ b, min = some b ∨ max = some b → b.Fits k) :
    number.Contains min max y.value ↔
      (∀ b, min = some b → b.Below (.finite y)) ∧ ∀ b, max = some b → b.Above (.finite y) := by
  constructor
  · intro h
    refine ⟨fun b hb => ?_, fun b hb => ?_⟩
    · obtain ⟨z, hz⟩ := (hf b (Or.inl hb)).exists_finite
      exact (Bound.below_finite_iff hz).2 (h.above b z hb hz)
    · obtain ⟨z, hz⟩ := (hf b (Or.inr hb)).exists_finite
      exact (Bound.above_finite_iff hz).2 (h.below b z hb hz)
  · rintro ⟨hmin, hmax⟩
    exact ⟨nofun, fun b z hb hz => (Bound.below_finite_iff hz).1 (hmin b hb),
      fun b z hb hz => (Bound.above_finite_iff hz).1 (hmax b hb)⟩

/-- **Some value satisfies the range exactly when some measure does.** -/
theorem exists_admitsWithin_iff (hk : k ≠ .boolean) (hf : ∀ b, min = some b ∨ max = some b → b.Fits k) :
    (∃ v, k.admitsWithin min max v = true) ↔ k.Reaches min max := by
  simp only [admitsWithin_iff]
  constructor
  · rintro ⟨v, x, hm, hmin, hmax⟩
    rcases hm.cases_double with ⟨y, rfl, hy⟩ | ⟨hs, rfl⟩
    · exact Or.inl ⟨y, hy, (contains_value_iff hf).2 ⟨hmin, hmax⟩⟩
    · refine Or.inr ⟨hs, Option.eq_none_iff_forall_not_mem.2 fun b hb => ?_⟩
      obtain ⟨z, hz⟩ := (hf b (Or.inr hb)).exists_finite
      exact Bound.not_above_infinite hz (hmax b hb)
  · rintro (⟨y, hy, hc⟩ | ⟨rfl, rfl⟩)
    · obtain ⟨v, x, hm, hx⟩ := hy.exists_value hk
      obtain ⟨hmin, hmax⟩ := (contains_value_iff hf).1 hc
      exact ⟨v, x, hm, fun b hb => Bound.below_of_beq hx (hmin b hb), fun b hb => Bound.above_of_beq hx (hmax b hb)⟩
    · have hpast : Double.ofNat (Nat.pow 2 1024) = .infinite false := by decide +kernel
      refine ⟨_, _, .length (String.ofList (List.replicate (Nat.pow 2 1024) 'a')), fun b hb => ?_,
        fun _ hb => nomatch hb⟩
      rw [String.length_ofList, List.length_replicate, hpast]
      obtain ⟨z, hz⟩ := (hf b (Or.inl hb)).exists_finite
      exact Bound.below_infinite hz

/-- An end is a measure, if it is whole where it has to be. -/
theorem hasMeasure_of_fits (hk : k ≠ .boolean) (h : b.Fits k) (hy : b.value = .finite y)
    (hw : k = .integer → b.value.isIntegral = true) : k.HasMeasure y := by
  rw [hy] at hw
  constructor
  · intro hn
    refine FiniteDouble.isIntegral_iff_value.1 ?_
    cases k with
    | string =>
      have hl := (h.length rfl).2
      rw [hy] at hl
      exact hl
    | number => exact absurd rfl hn
    | integer => exact hw rfl
    | boolean => exact absurd rfl hk
  · intro hs
    have hzero : Double.ofNat 0 = .finite .zero := by decide +kernel
    have hl := (h.length hs).1
    rwa [hy, hzero, Bool.eq_false_iff, ne_eq, FiniteDouble.lt_finite_iff, not_lt, FiniteDouble.value_zero] at hl

/-- **A range is not hollow if one of its ends is a measure that it includes**: what lies between the ends is past the
other one, and so is the end then. -/
theorem not_hollow_of_inclusive (hk : k ≠ .boolean) (hf : ∀ b, min = some b ∨ max = some b → b.Fits k)
    (hb : min = some b ∨ max = some b) (hi : b.inclusive = true) (hw : k = .integer → b.value.isIntegral = true) :
    ¬k.Hollow min max := by
  rintro ⟨⟨q, hq⟩, hn⟩
  obtain ⟨y, hy⟩ := (hf b hb).exists_finite
  refine hn (Or.inl ⟨y, hasMeasure_of_fits hk (hf b hb) hy hw, ?_⟩)
  rcases hb with hb | hb
  · have hyq := hq.above b y hb hy
    refine ⟨nofun, fun b' z hb' hz => ?_, fun b' z hb' hz => hyq.trans_right (hq.below b' z hb' hz)⟩
    cases hb.symm.trans hb'
    cases hy.symm.trans hz
    exact Or.inr ⟨hi, rfl⟩
  · have hqy := hq.below b y hb hy
    refine ⟨nofun, fun b' z hb' hz => (hq.above b' z hb' hz).trans_left hqy, fun b' z hb' hz => ?_⟩
    cases hb.symm.trans hb'
    cases hy.symm.trans hz
    exact Or.inr ⟨hi, rfl⟩

end Kind

end Assay
