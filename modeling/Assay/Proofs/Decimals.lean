import Assay.Constraint.Printer
/-!
# Doubles survive their text

The decimal that is written for a finite double reads back as that double (`readsBack_shortest`), signs of zero
included, because every grid of the search is accepted only if it does and the last grid holds every double exactly.
Written out in full it is a run of digits and perhaps a fraction (`render_eq`).
-/
namespace Assay

theorem digitsValue_eq_ofDigitChars (ds : List Char) : digitsValue ds = Nat.ofDigitChars 10 ds 0 := by
  unfold digitsValue Nat.ofDigitChars
  congr 1
  funext n c
  rw [Nat.mul_comm]
  rfl

theorem digitsValue_toDigits (n : Nat) : digitsValue (Nat.toDigits 10 n) = n := by
  rw [digitsValue_eq_ofDigitChars, Nat.ofDigitChars_ten_toDigits]

theorem digitsValue_append_zeros (ds : List Char) (k : Nat) :
    digitsValue (ds ++ List.replicate k '0') = digitsValue ds * Nat.pow 10 k := by
  rw [digitsValue_eq_ofDigitChars, digitsValue_eq_ofDigitChars, Nat.ofDigitChars_append,
    Nat.ofDigitChars_replicate_zero, Nat.mul_comm]
  rfl

theorem digitsValue_zeros_append (ds : List Char) (k : Nat) :
    digitsValue (List.replicate k '0' ++ ds) = digitsValue ds := by
  rw [digitsValue_eq_ofDigitChars, digitsValue_eq_ofDigitChars, Nat.ofDigitChars_append,
    Nat.ofDigitChars_replicate_zero, Nat.mul_zero]

theorem roundHalfEven_mul {q d : Nat} (hd : 0 < d) : roundHalfEven (q * d) d = q := by
  unfold roundHalfEven
  rw [Nat.mul_div_cancel q hd, Nat.mul_mod_left]
  exact if_pos (Or.inl hd)

/-- A multiple of its own gap is not rounded. -/
theorem roundUnits_mul {u d : Nat} (hu : ulp u ∣ u) (hd : 0 < d) : roundUnits (u * d) d = u := by
  unfold roundUnits
  rw [Nat.mul_div_cancel u hd]
  dsimp only
  obtain ⟨q, hq⟩ := hu
  have hg : 0 < ulp u := Nat.pow_pos (by decide)
  have hm : u * d = q * (d * ulp u) := by
    rw [Nat.mul_comm d, ← Nat.mul_assoc, Nat.mul_comm q, ← hq]
  rw [hm, roundHalfEven_mul (Nat.mul_pos hd hg), Nat.mul_comm, ← hq]

namespace FiniteDouble

variable {x : FiniteDouble} {c : Nat}

theorem ofRatio_eq_of_roundUnits {n d : Nat} (h : roundUnits (n * unitsPerOne) d = x.units) :
    Double.ofRatio x.negative n d = .finite x := by
  obtain ⟨negative, units, hr⟩ := x
  unfold Double.ofRatio
  dsimp only at h ⊢
  subst h
  exact dif_pos hr

/-- What reads back as the magnitude is, with the sign, the double. -/
theorem ofDecimal_eq_of_readsBack : ∀ {e : Int}, x.readsBack c e = true → Double.ofDecimal x.negative c e = .finite x
  | .ofNat _, h => ofRatio_eq_of_roundUnits (beq_iff_eq.1 h)
  | .negSucc _, h => ofRatio_eq_of_roundUnits (beq_iff_eq.1 h)

theorem readsBack_of_gridPoint? {tie : Tie} {e : Int} (h : x.gridPoint? tie e = some c) : x.readsBack c e = true := by
  unfold gridPoint? at h
  generalize x.overPower e = p at h
  obtain ⟨num, den⟩ := p
  dsimp only at h
  cases hb : x.readsBack (num / den) e <;> cases ha : x.readsBack (num / den + 1) e <;> rw [hb, ha] at h <;> dsimp only at h
  · cases h
  · rw [← Option.some.inj h]
    exact ha
  · rw [← Option.some.inj h]
    exact hb
  · have hc : c = num / den ∨ c = num / den + 1 := by
      split at h
      · exact Or.inl (Option.some.inj h).symm
      split at h
      · exact Or.inr (Option.some.inj h).symm
      cases tie with
      | up => exact Or.inr (Option.some.inj h).symm
      | even =>
        rw [← Option.some.inj h]
        split
        · exact Or.inl rfl
        · exact Or.inr rfl
    rcases hc with rfl | rfl
    · exact hb
    · exact ha

/-- On the grid of `10 ^ -1074` nothing is rounded. -/
theorem readsBack_lastGrid (x : FiniteDouble) {n k : Nat} (hn : n = 1074) (hk : n = k + 1) :
    x.readsBack (x.units * Nat.pow 5 n) (.negSucc k) = true := by
  have hone : unitsPerOne = Nat.pow 2 n := by
    unfold unitsPerOne
    exact congrArg _ hn.symm
  have hm : x.units * Nat.pow 5 n * unitsPerOne = x.units * Nat.pow 10 n := by
    rw [hone, Nat.mul_assoc]
    exact congrArg _ (Nat.mul_pow 5 2 n).symm
  have hp : 0 < Nat.pow 10 n := Nat.pow_pos (by decide)
  rw [readsBack, hm, ← hk, roundUnits_mul x.representable.1 hp]
  exact beq_self_eq_true _

theorem readsBack_shortestFrom (tie : Tie) : ∀ n : Nat,
    x.readsBack (x.shortestFrom tie n).coefficient (x.shortestFrom tie n).exponent = true
  | 0 => by
    unfold shortestFrom
    dsimp only
    apply x.readsBack_lastGrid (k := 1073) <;> rfl
  | n + 1 => by
    rw [shortestFrom]
    split
    · rename_i c h
      exact readsBack_of_gridPoint? h
    · exact readsBack_shortestFrom tie n

/-- **The shortest decimal reads back.** -/
theorem readsBack_shortest (tie : Tie) (x : FiniteDouble) :
    x.readsBack (x.shortest tie).coefficient (x.shortest tie).exponent = true := by
  unfold shortest
  split
  · rename_i h
    dsimp only
    rw [show (0 : Int) = .ofNat 0 from rfl, readsBack, h, Nat.zero_mul]
    decide
  · exact readsBack_shortestFrom tie _

end FiniteDouble

/-- What a digit string has after its whole part. -/
def fractionText (fraction : List Char) : List Char := if fraction.isEmpty then [] else '.' :: fraction

/-- **A decimal written out in full** is a whole part and a fraction, which together spell its coefficient. -/
theorem exists_plain (style : DecimalStyle) (hs : style.wholeMark = "") (d : Decimal) : ∃ whole fraction : List Char,
    (style.plain d).toList = whole ++ fractionText fraction ∧ whole ≠ [] ∧
      (∀ c ∈ whole ++ fraction, c.isDigit = true) ∧ ∀ negative,
        Double.ofDecimal negative (digitsValue (whole ++ fraction)) (-(fraction.length : Int)) =
          Double.ofDecimal negative d.coefficient d.exponent := by
  obtain ⟨c, e⟩ := d
  have hd : ∀ a ∈ Nat.toDigits 10 c, a.isDigit = true := fun a ha =>
    Nat.isDigit_of_mem_toDigits (by decide) (by decide) ha
  have hz : ∀ n, ∀ a ∈ List.replicate n '0', a.isDigit = true := fun n a ha => by
    rw [List.eq_of_mem_replicate ha]
    decide
  cases e with
  | ofNat k =>
    refine ⟨Nat.toDigits 10 c ++ List.replicate k '0', [], ?_, ?_, ?_, fun negative => ?_⟩
    · unfold DecimalStyle.plain
      simp [hs, fractionText]
    · simp [Nat.toDigits_ne_nil]
    · rw [List.append_nil]
      exact List.forall_mem_append.2 ⟨hd, hz k⟩
    · rw [List.append_nil, digitsValue_append_zeros, digitsValue_toDigits]
      show Double.ofRatio negative (c * Nat.pow 10 k * Nat.pow 10 0) 1 = Double.ofRatio negative (c * Nat.pow 10 k) 1
      rw [show Nat.pow 10 0 = 1 from rfl, Nat.mul_one]
  | negSucc k =>
    -- The point falls inside the digits, or they have to be filled up from the left.
    by_cases hlt : k + 1 < (Nat.toDigits 10 c).length
    · generalize hds : Nat.toDigits 10 c = ds at hlt
      have hdrop : (ds.drop (ds.length - (k + 1))).length = k + 1 := by
        rw [List.length_drop]
        omega
      refine ⟨ds.take (ds.length - (k + 1)), ds.drop (ds.length - (k + 1)), ?_, ?_, ?_, fun negative => ?_⟩
      · unfold DecimalStyle.plain fractionText
        rw [if_neg]
        · simp [hds, hlt]
        · rw [List.isEmpty_iff_length_eq_zero, hdrop]
          omega
      · intro hn
        have := congrArg List.length hn
        rw [List.length_take, List.length_nil] at this
        omega
      · rw [List.take_append_drop, ← hds]
        exact hd
      · rw [List.take_append_drop, ← hds, digitsValue_toDigits, hds, hdrop]
        rfl
    · refine ⟨['0'], List.replicate (k + 1 - (Nat.toDigits 10 c).length) '0' ++ Nat.toDigits 10 c, ?_, ?_, ?_,
        fun negative => ?_⟩
      · unfold DecimalStyle.plain fractionText
        simp [hlt, Nat.toDigits_ne_nil]
      · exact List.cons_ne_nil _ _
      · exact List.forall_mem_append.2 ⟨hz 1, List.forall_mem_append.2 ⟨hz _, hd⟩⟩
      · have hl : (List.replicate (k + 1 - (Nat.toDigits 10 c).length) '0' ++ Nat.toDigits 10 c).length = k + 1 := by
          rw [List.length_append, List.length_replicate]
          omega
        rw [hl, List.cons_append, List.nil_append, ← List.cons_append, ← List.replicate_succ, digitsValue_zeros_append,
          digitsValue_toDigits]
        rfl

namespace Double

/-- **The text of a finite double** is a sign, a whole part and a fraction that spell exactly this double. -/
theorem exists_render (x : FiniteDouble) : ∃ whole fraction : List Char,
    (Double.finite x).render.toList = (if x.negative then ['-'] else []) ++ whole ++ fractionText fraction ∧
      whole ≠ [] ∧ (∀ c ∈ whole ++ fraction, c.isDigit = true) ∧
        ofDecimal x.negative (digitsValue (whole ++ fraction)) (-(fraction.length : Int)) = .finite x := by
  obtain ⟨whole, fraction, ht, hw, hd, hv⟩ := exists_plain expressionDecimals rfl (x.shortest .up)
  refine ⟨whole, fraction, ?_, hw, hd, (hv _).trans ?_⟩
  · have hr : (Double.finite x).render =
        (if x.negative then "-" else "") ++ expressionDecimals.plain (x.shortest .up) := rfl
    rw [hr, String.toList_append, ht, List.append_assoc]
    cases x.negative <;> rfl
  · exact FiniteDouble.ofDecimal_eq_of_readsBack (x.readsBack_shortest .up)

end Double

end Assay
