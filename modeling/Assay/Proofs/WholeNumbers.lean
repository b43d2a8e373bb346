import Assay.Proofs.Decimals
import Assay.Proofs.Order
import Assay.Tree.Allows
import Assay.Tree.Normalize
/-!
# Whole doubles as integers

A number token has an exact value in units (`Number.exact`).  A whole double has that of its truncation, which is an
equal double again (`ofInt_truncate_beq`); a double that is not whole is small enough to be truncated, and its
truncation has another value.  So an integer takes the place of a double without a change of value exactly when the
double is whole (`rewritten_truncate_iff`), and then no tree tells one from the other (`Tree.allows_asInteger`).
-/
namespace Assay

theorem unitsPerOne_pos : 0 < unitsPerOne := by decide +kernel

theorem unitsPerOne_dvd_ulp {k u : Nat} (hk : k = 1074) (h : k + 52 ≤ u.log2) : unitsPerOne ∣ ulp u := by
  unfold unitsPerOne
  rw [← hk]
  exact Nat.pow_dvd_pow 2 (by omega)

namespace Number

/-- The value of a number token, in units. -/
def exact : Number → Int
  | .integer n _ => n * unitsPerOne
  | .double x => x.signedUnits

/-- **A number token may stay, or a double may become the integer of the same value.** -/
inductive Rewritten : Number → Number → Prop
  | same (a : Number) : Rewritten a a
  | whole {x : FiniteDouble} {n : Int} {fits : FitsInteger n} :
    (integer n fits).exact = (double x).exact → Rewritten (.double x) (.integer n fits)

end Number

namespace FiniteDouble

variable {x : FiniteDouble}

theorem natAbs_signedUnits (x : FiniteDouble) : x.signedUnits.natAbs = x.units := by
  unfold signedUnits
  split <;> simp

theorem isIntegral_iff_dvd : x.isIntegral = true ↔ unitsPerOne ∣ x.units := by
  unfold isIntegral
  rw [beq_iff_eq, Nat.dvd_iff_mod_eq_zero]

theorem isIntegral_iff_signedUnits_dvd : x.isIntegral = true ↔ (unitsPerOne : Int) ∣ x.signedUnits := by
  rw [isIntegral_iff_dvd, ← Int.natCast_dvd_natCast]
  unfold signedUnits
  split
  · exact Int.dvd_neg.symm
  · rfl

theorem truncate_mul_unitsPerOne (h : x.isIntegral = true) : x.truncate * unitsPerOne = x.signedUnits :=
  Int.tdiv_mul_cancel (isIntegral_iff_signedUnits_dvd.1 h)

theorem isIntegral_of_mul_unitsPerOne {n : Int} (h : n * unitsPerOne = x.signedUnits) : x.isIntegral = true :=
  isIntegral_iff_signedUnits_dvd.2 ⟨n, by rw [← h, Int.mul_comm]⟩

/-- From 2⁵² on the gap between neighbours is a whole number. -/
theorem isIntegral_of_le (h : 0x10000000000000 * unitsPerOne ≤ x.units) : x.isIntegral = true := by
  have hpos : x.units ≠ 0 := Nat.ne_of_gt (Nat.lt_of_lt_of_le (Nat.mul_pos (by decide) unitsPerOne_pos) h)
  have he : 0x10000000000000 * unitsPerOne = Nat.pow 2 (1074 + 52) := by decide +kernel
  rw [he] at h
  have hlog : ∀ k, Nat.pow 2 k ≤ x.units → k ≤ x.units.log2 := fun k hk => (Nat.le_log2 hpos).2 hk
  exact isIntegral_iff_dvd.2 (Nat.dvd_trans (unitsPerOne_dvd_ulp rfl (hlog _ h)) x.representable.1)

/-- A double that is not whole lies within 2⁵². -/
theorem natAbs_truncate_lt (h : x.isIntegral = false) : x.truncate.natAbs < 0x10000000000000 := by
  have hu : x.units < 0x10000000000000 * unitsPerOne :=
    Nat.lt_of_not_le fun hle => by rw [isIntegral_of_le hle] at h; cases h
  unfold truncate
  rw [Int.natAbs_tdiv, natAbs_signedUnits, Int.natAbs_natCast]
  exact (Nat.div_lt_iff_lt_mul unitsPerOne_pos).2 hu

/-- **A whole double equals its truncation.** -/
theorem ofInt_truncate_beq (h : x.isIntegral = true) : (Double.ofInt x.truncate == .finite x) = true := by
  have hu : x.truncate.natAbs * unitsPerOne = x.units := by
    have hs := congrArg Int.natAbs (truncate_mul_unitsPerOne h)
    rwa [Int.natAbs_mul, Int.natAbs_natCast, natAbs_signedUnits] at hs
  -- The negative zero truncates to zero, which is positive: the sign is that of the truncation.
  have hr : Double.ofInt x.truncate = .finite ⟨decide (x.truncate < 0), x.units, x.representable⟩ := by
    unfold Double.ofInt
    refine ofRatio_eq_of_roundUnits (x := ⟨decide (x.truncate < 0), x.units, x.representable⟩) ?_
    have hm : x.truncate.natAbs * unitsPerOne = x.units * 1 := by rw [hu, Nat.mul_one]
    rw [hm]
    exact roundUnits_mul x.representable.1 Nat.one_pos
  rw [hr, Double.beq_iff]
  refine ⟨x.signedUnits, congrArg some ?_, rfl⟩
  rw [← truncate_mul_unitsPerOne h]
  by_cases hn : x.truncate < 0
  · refine (if_pos (decide_eq_true hn)).trans ?_
    rw [← hu, Int.natCast_mul, ← Int.neg_mul, ← Int.eq_neg_natAbs_of_nonpos (Int.le_of_lt hn)]
  · refine (if_neg (by simpa using hn)).trans ?_
    rw [← hu, Int.natCast_mul, Int.natAbs_of_nonneg (Int.not_lt.1 hn)]

end FiniteDouble

namespace Json

/-- What the truncation of a number token gives: the token, or the integer of a double. -/
theorem asInteger_cases (v : Json) : v.asInteger = v ∨
    ∃ (x : FiniteDouble) (fits : FitsInteger x.truncate), v = .number (.double x) ∧
      v.asInteger = .number (.integer x.truncate fits) := by
  cases v with
  | number n =>
    cases n with
    | integer n fits => exact Or.inl rfl
    | double x =>
      rw [asInteger]
      split
      · rename_i h
        exact Or.inr ⟨x, ⟨h.1, by omega⟩, rfl, rfl⟩
      · exact Or.inl rfl
  | _ => exact Or.inl rfl

theorem asInteger_double {x : FiniteDouble} {n : Int} (h : x.truncate = n)
    (hr : -0x8000000000000000 ≤ n ∧ n < 0x8000000000000000) :
      (number (.double x)).asInteger = number (.integer n ⟨hr.1, by omega⟩) := by
  subst h
  exact dif_pos hr

/-- A double that is not whole is truncated. -/
theorem asInteger_of_not_isIntegral {x : FiniteDouble} (h : x.isIntegral = false) : ∃ fits : FitsInteger x.truncate,
    (number (.double x)).asInteger = number (.integer x.truncate fits) := by
  have hlt := FiniteDouble.natAbs_truncate_lt h
  exact ⟨_, asInteger_double rfl (by omega)⟩

end Json

namespace Number

/-- A double that becomes an integer of the same value is whole. -/
theorem Rewritten.isIntegral {x : FiniteDouble} {n : Int} {fits : FitsInteger n}
    (h : Rewritten (.double x) (.integer n fits)) : x.isIntegral = true := by
  cases h with
  | whole h => exact FiniteDouble.isIntegral_of_mul_unitsPerOne h

/-- **A double becomes the integer of its truncation without a change of value exactly when it is whole.** -/
theorem rewritten_truncate_iff {x : FiniteDouble} {fits : FitsInteger x.truncate} :
    Rewritten (.double x) (.integer x.truncate fits) ↔ x.isIntegral = true :=
  ⟨Rewritten.isIntegral, fun h => .whole (FiniteDouble.truncate_mul_unitsPerOne h)⟩

end Number

/-- **Number tokens that no constraint tells apart**: equal as doubles, and both whole or neither. -/
structure Number.Same (a b : Number) : Prop where
  beq : (a.toDouble == b.toDouble) = true
  isIntegral : a.isIntegral = b.isIntegral

namespace Json

/-- If the value is a double, it is a whole one. -/
def Whole (v : Json) : Prop := ∀ d, v = .number (.double d) → d.isIntegral = true

/-- The integer of a whole double is the same number. -/
theorem asInteger_same {v : Json} (hw : v.Whole) :
    v.asInteger = v ∨ ∃ a b : Number, v = .number a ∧ v.asInteger = .number b ∧ b.Same a := by
  refine v.asInteger_cases.imp_right ?_
  rintro ⟨x, fits, hv, he⟩
  have hx := hw x hv
  exact ⟨.double x, _, hv, he, FiniteDouble.ofInt_truncate_beq hx, hx.symm⟩

/-- What takes number tokens that are the same alike takes a whole double like its integer. -/
theorem asInteger_congr {α : Type} {f : Json → α} {v : Json} (hw : v.Whole)
    (hf : ∀ a b : Number, a.Same b → f (.number a) = f (.number b)) : f v.asInteger = f v := by
  rcases asInteger_same hw with he | ⟨a, b, rfl, he, h⟩
  · rw [he]
  · rw [he]
    exact hf b a h

end Json

namespace Kind

theorem whole_of_admits {v : Json} (h : integer.admits v = true) : v.Whole := by
  rintro d rfl
  exact h

theorem whole_of_admitsWithin {min max : Option Bound} {v : Json} (h : integer.admitsWithin min max v = true) :
    v.Whole := by
  rintro d rfl
  unfold admitsWithin measure? at h
  cases hd : d.isIntegral with
  | true => rfl
  | false => simp [Number.isIntegral, hd] at h

end Kind

section Same

variable {a b : Number} {follow : String → Json → Bool}

theorem Kind.admits_of_same (h : a.Same b) (k : Kind) : k.admits (.number a) = k.admits (.number b) := by
  cases k with
  | integer => exact h.isIntegral
  | _ => rfl

theorem Kind.admitsWithin_of_same (h : a.Same b) (k : Kind) (min max : Option Bound) :
    k.admitsWithin min max (.number a) = k.admitsWithin min max (.number b) := by
  have hmin : (fun o : Bound => o.admitsAbove a.toDouble) = fun o => o.admitsAbove b.toDouble := by
    funext o
    unfold Bound.admitsAbove
    rw [Double.le_congr_right h.beq, Double.lt_congr_right h.beq]
  have hmax : (fun o : Bound => o.admitsBelow a.toDouble) = fun o => o.admitsBelow b.toDouble := by
    funext o
    unfold Bound.admitsBelow
    rw [Double.le_congr_left h.beq, Double.lt_congr_left h.beq]
  have hm : ∀ x y : Double, x = a.toDouble → y = b.toDouble →
      (min.all (·.admitsAbove x) && max.all (·.admitsBelow x)) =
        (min.all (·.admitsAbove y) && max.all (·.admitsBelow y)) := by
    rintro _ _ rfl rfl
    rw [hmin, hmax]
  unfold admitsWithin measure?
  cases k with
  | number => exact hm _ _ rfl rfl
  | integer =>
    dsimp only
    rw [h.isIntegral]
    cases b.isIntegral with
    | true => exact hm _ _ rfl rfl
    | false => rfl
  | _ => rfl

theorem Literal.admits_of_same (h : a.Same b) (l : Literal) : l.admits (.number a) = l.admits (.number b) := by
  cases l with
  | number x => exact Double.beq_congr_left h.beq x
  | _ => rfl

mutual

theorem Constraint.allows_of_same (h : a.Same b) (hf : ∀ name, follow name (.number a) = follow name (.number b)) :
    ∀ (c : Constraint), c.allows follow (.number a) = c.allows follow (.number b)
  | kind k => k.admits_of_same h
  | range k min max => k.admitsWithin_of_same h min max
  | format _ => rfl
  | literal l => l.admits_of_same h
  | union cs => by
    rw [allows, allows]
    exact allowsAny_of_same h hf cs
  | array _ => rfl
  | tuple _ => rfl
  | optional c => by
    rw [allows, allows]
    exact allows_of_same h hf c
  | reference name => hf name

theorem Constraint.allowsAny_of_same (h : a.Same b) (hf : ∀ name, follow name (.number a) = follow name (.number b)) :
    ∀ (cs : List Constraint), allowsAny follow cs (.number a) = allowsAny follow cs (.number b)
  | [] => rfl
  | c :: cs => by rw [allowsAny, allowsAny, allows_of_same h hf c, allowsAny_of_same h hf cs]

end

theorem Tree.allows_of_same (h : a.Same b) (hf : ∀ name, follow name (.number a) = follow name (.number b)) (t : Tree) :
    t.allows follow (.number a) = t.allows follow (.number b) := by
  cases t with
  | leaf c =>
    rw [allows, allows]
    exact c.allows_of_same h hf
  | _ => rfl

theorem Definitions.allows_of_same (h : a.Same b) (defs : Definitions) : ∀ (budget : Nat) (name : String),
    defs.allows budget name (.number a) = defs.allows budget name (.number b)
  | 0, _ => rfl
  | budget + 1, name => by
    rw [allows, allows]
    cases defs.lookup name with
    | none => rfl
    | some t => exact t.allows_of_same h (Definitions.allows_of_same h defs budget)

end Same

/-- **No tree tells a whole double from its integer**, if no reference does. -/
theorem Tree.allows_asInteger {v : Json} (hw : v.Whole) (defs : Definitions) (budget : Nat) (t : Tree) :
    t.allows (defs.allows budget) v.asInteger = t.allows (defs.allows budget) v :=
  Json.asInteger_congr hw fun _ _ h => t.allows_of_same h (defs.allows_of_same h budget)

end Assay
