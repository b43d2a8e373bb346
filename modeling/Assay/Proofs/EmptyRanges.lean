import Assay.Proofs.FirstFault
import Assay.Proofs.Measures
import Assay.Proofs.Reparsing
import Assay.Proofs.TypedReading
import Assay.Schema.Bounds
/-!
# Empty ranges

The check of a range compares its ends as numbers, so that with ends that fit it finds a range empty exactly when no
number at all lies between them (`rangeFits_iff_exists`, `checkRange_eq_emptyRange`).  A range reaches the compiler as a
constraint, from bounds that were set one after another, or spelled in an expression (`Description.Ranges`), and is
refused for what the check finds in each of these forms.  What is refused has no value; what is not refused has one
unless it is hollow (`Compiler.refusesEmpty_iff_unsatisfiable`), and hollow ranges compile (`hollow_range_compiles`).
-/
namespace Assay

open Constraint Grammar

namespace Grammar

variable {isDefined : String → Bool}

/-- **A range as it is spelled**, with comparators around or after an operand that denotes a bare kind, whatever its
ends are. -/
inductive Ranged (isDefined : String → Bool) : List Lexeme → Kind → Option Bound → Option Bound → Prop
  | after {ls : List Lexeme} {k : Kind} (o : Comparator) (x : Double) : Operand isDefined ls (.kind k) →
    Ranged isDefined (ls ++ [.comparator o, .number x]) k (o.bounds x).1 (o.bounds x).2
  | before {ls : List Lexeme} {k : Kind} (x : Double) (o : Comparator) : Operand isDefined ls (.kind k) →
    Ranged isDefined (.number x :: .comparator o :: ls) k (o.flip.bounds x).1 (o.flip.bounds x).2
  | between {ls : List Lexeme} {k : Kind} (lo : Double) (left right : Comparator) (hi : Double) {l r : Bool} :
    left.inclusive? = some l → right.inclusive? = some r → Operand isDefined ls (.kind k) →
      Ranged isDefined (.number lo :: .comparator left :: ls ++ [.comparator right, .number hi]) k (some ⟨lo, l⟩)
        (some ⟨hi, r⟩)
  | group {ls : List Lexeme} {k : Kind} {min max : Option Bound} : Ranged isDefined ls k min max →
    Ranged isDefined (.openParen :: ls ++ [.closeParen]) k min max

namespace Ranged

variable {ls : List Lexeme} {k : Kind} {min max : Option Bound}

theorem begins (h : Ranged isDefined ls k min max) : Begins ls := by
  cases h with
  | after o x h => exact h.begins.append _
  | before => exact ⟨_, _, rfl, rfl⟩
  | between => exact ⟨_, _, rfl, rfl⟩
  | group => exact ⟨_, _, rfl, rfl⟩

/-- With ends that make a range, it is a term of the grammar. -/
theorem term (h : Ranged isDefined ls k min max) (hf : RangeFits k min max) : Term isDefined ls (.range k min max) := by
  induction h with
  | after o x h => exact .after o x h hf
  | before x o h => exact .before x o h hf
  | between lo left right hi hl hr h => exact .between lo left right hi hl hr h hf
  | group _ ih =>
    have hu := Union.terms (.one (ih hf))
    rw [(ih hf).tidy.oneOf_singleton] at hu
    exact .operand (.atom (.group hu))

end Ranged

end Grammar

namespace Constraint

variable {isDefined : String → Bool} {ls : List Lexeme} {k : Kind} {min max : Option Bound} {e : ConstraintError}

theorem rangeOf_eq_error (he : checkRange k min max = .error e) : rangeOf k (min, max) = .error e := by
  unfold rangeOf
  rw [he]
  rfl

theorem rangeBetween_eq_error {lo hi : Double} {left right : Comparator} {l r : Bool} {i j : Nat}
    (hl : left.inclusive? = some l) (hr : right.inclusive? = some r)
    (he : checkRange k (some ⟨lo, l⟩) (some ⟨hi, r⟩) = .error e) : rangeBetween k lo left i right j hi = .error e := by
  unfold rangeBetween
  rw [hl, hr]
  exact rangeOf_eq_error he

/-- A union is refused for its first term. -/
theorem readUnion_eq_error {ts ts' : List Token} {t : Token} (hhead : ts = t :: ts') (ht : t.lexeme.starts = true)
    (he : readTerm isDefined ts = .error e) : readUnion isDefined ts = .error e := by
  rw [readUnion, bar?_of_starts hhead ht]
  dsimp only
  rw [he]
  rfl

/-- **A range with ends that are refused is refused for them**: up to the check of its ends it is read as it is
spelled. -/
theorem readTerm_of_ranged (h : Grammar.Ranged isDefined ls k min max) (hk : k.isBoundable = true)
    (he : checkRange k min max = .error e) {ts rest : List Token} (hts : ts.map Token.lexeme = ls)
    (hf : Follows 1 rest) : readTerm isDefined (ts ++ rest) = .error e := by
  have hkind : ∀ {k : Kind} (i : Nat), k.isBoundable = true → (kind k).boundableKind i = .ok k := fun i hk =>
    boundableKind_eq_ok_iff.2 ⟨rfl, hk⟩
  induction h generalizing ts rest with
  | after o x h =>
    have hend : endOfRange rest = .ok () := endOfRange_eq_ok_iff.2 hf.comparator?_eq_none
    obtain ⟨used, last, rfl, hused, hlast⟩ := List.map_eq_append_iff.1 hts
    obtain ⟨i, ts', rfl, hts'⟩ := map_lexeme_eq_cons_iff.1 hlast
    obtain ⟨j, rfl⟩ := map_lexeme_eq_singleton hts'
    have hnext : Follows 2 (⟨.comparator o, i⟩ :: ⟨.number x, j⟩ :: rest) := Follows.cons (Nat.le_refl 2)
    have hr := h.reads hused (hnext.mono (by decide)) (reads_arrays_of_follows hnext)
    rw [List.append_assoc, readTerm, h.leftBound?_eq_none hused (Or.inr ⟨_, rfl⟩)]
    dsimp only [List.cons_append, List.nil_append]
    rw [hr.bind_eq]
    dsimp only [comparator?]
    rw [hkind _ hk]
    show (endOfRange rest >>= fun _ => rangeOf _ (o.bounds x) >>= _) = _
    rw [hend]
    show (rangeOf _ (o.bounds x) >>= _) = _
    rw [rangeOf_eq_error he]
    rfl
  | before x o h =>
    obtain ⟨i, ts', rfl, hts'⟩ := map_lexeme_eq_cons_iff.1 hts
    obtain ⟨j, ts'', rfl, hts''⟩ := map_lexeme_eq_cons_iff.1 hts'
    have hr := h.reads hts'' (hf.mono (by decide)) (reads_arrays_of_follows (hf.mono (by decide)))
    rw [readTerm]
    dsimp only [List.cons_append, leftBound?]
    rw [hr.bind_eq]
    dsimp only
    rw [hkind _ hk, hf.comparator?_eq_none]
    show (rangeOf _ (o.flip.bounds x) >>= _) = _
    rw [rangeOf_eq_error he]
    rfl
  | @between ls k lo left right hi l r hl hr' h =>
    have hend : endOfRange rest = .ok () := endOfRange_eq_ok_iff.2 hf.comparator?_eq_none
    obtain ⟨i, ts', rfl, hts'⟩ := map_lexeme_eq_cons_iff.1 hts
    obtain ⟨j, ts'', rfl, hts''⟩ := map_lexeme_eq_cons_iff.1 hts'
    obtain ⟨used, last, rfl, hused, hlast⟩ := List.map_eq_append_iff.1 hts''
    obtain ⟨i', us, rfl, hus⟩ := map_lexeme_eq_cons_iff.1 hlast
    obtain ⟨j', rfl⟩ := map_lexeme_eq_singleton hus
    have hnext : Follows 2 (⟨.comparator right, i'⟩ :: ⟨.number hi, j'⟩ :: rest) := Follows.cons (Nat.le_refl 2)
    have hr := h.reads hused (hnext.mono (by decide)) (reads_arrays_of_follows hnext)
    rw [List.cons_append, List.cons_append, List.append_assoc, readTerm]
    dsimp only [leftBound?, List.cons_append, List.nil_append]
    rw [hr.bind_eq]
    dsimp only [comparator?]
    rw [hkind _ hk]
    show (endOfRange rest >>= fun _ => rangeBetween k lo left j right i' hi >>= _) = _
    rw [hend]
    show (rangeBetween k lo left j right i' hi >>= _) = _
    rw [rangeBetween_eq_error hl hr' he]
    rfl
  | group h ih =>
    obtain ⟨i, ts', rfl, hts'⟩ := map_lexeme_eq_cons_iff.1 hts
    obtain ⟨used, last, rfl, hused, hlast⟩ := List.map_eq_append_iff.1 hts'
    obtain ⟨j, rfl⟩ := map_lexeme_eq_singleton hlast
    have hnext : Follows 0 (⟨.closeParen, j⟩ :: rest) := Follows.cons (Nat.le_refl 0)
    obtain ⟨t, ts'', hhead, ht⟩ := exists_head (⟨.closeParen, j⟩ :: rest) h.begins hused
    have hu := readUnion_eq_error hhead ht (ih hk he hused (hnext.mono (by decide)))
    rw [List.cons_append, List.append_assoc, readTerm]
    dsimp only [leftBound?, List.cons_append, List.nil_append]
    rw [readOperand, readAtom]
    dsimp only
    rw [hu]
    rfl

/-- The text of a range that is refused is refused for it. -/
theorem parse_of_ranged {text : String} {ts : List Token} (hts : Token.ofString text = .ok ts)
    (h : Grammar.Ranged isDefined (ts.map Token.lexeme) k min max) (hk : k.isBoundable = true)
    (he : checkRange k min max = .error e) : parse isDefined text = .error e := by
  obtain ⟨t, ts', hhead, ht⟩ := exists_head [] h.begins rfl
  rw [List.append_nil] at hhead
  have hterm : readTerm isDefined (ts ++ []) = .error e := readTerm_of_ranged h hk he rfl fun _ hn => nomatch hn
  rw [List.append_nil] at hterm
  rw [parse, hts]
  show ofTokens isDefined ts = _
  rw [ofTokens, readUnion_eq_error hhead ht hterm, hhead]
  rfl

end Constraint

section Ends

variable {k : Kind} {min max : Option Bound}

/-- **Ends that fit make a range exactly when something lies between them.** -/
theorem rangeFits_iff_exists (hk : k ≠ .boolean) (hf : ∀ b, min = some b ∨ max = some b → b.Fits k) :
    RangeFits k min max ↔ ∃ q : ℚ, Kind.number.Contains min max q := by
  constructor
  · intro h
    cases min with
    | none =>
      cases max with
      | none => exact ⟨0, contains_iff.2 ⟨nofun, (fun _ _ h => nomatch h), fun _ _ h => nomatch h⟩⟩
      | some hi =>
        obtain ⟨z, hz⟩ := (hf hi (Or.inr rfl)).exists_finite
        exact ⟨z.value - 1, contains_iff.2
          ⟨nofun, (fun _ _ h => nomatch h), (forall_finite_iff hz).2 (Or.inl (sub_one_lt _))⟩⟩
    | some lo =>
      obtain ⟨y, hy⟩ := (hf lo (Or.inl rfl)).exists_finite
      cases max with
      | none =>
        exact ⟨y.value + 1, contains_iff.2
          ⟨nofun, (forall_finite_iff hy).2 (Or.inl (lt_add_one _)), fun _ _ h => nomatch h⟩⟩
      | some hi =>
        obtain ⟨z, hz⟩ := (hf hi (Or.inr rfl)).exists_finite
        have hends := h.nonempty lo hi rfl rfl
        rw [hy, hz, FiniteDouble.lt_finite_iff, beq_finite_iff, ← FiniteDouble.value_eq_value_iff] at hends
        obtain ⟨q, hl, hr⟩ := exists_precedes_iff.2 hends
        exact ⟨q, contains_iff.2 ⟨nofun, (forall_finite_iff hy).2 hl, (forall_finite_iff hz).2 hr⟩⟩
  · rintro ⟨q, hq⟩
    refine ⟨hk, hf, fun lo hi hlo hhi => ?_⟩
    obtain ⟨y, hy⟩ := (hf lo (Or.inl hlo)).exists_finite
    obtain ⟨z, hz⟩ := (hf hi (Or.inr hhi)).exists_finite
    rw [hy, hz, FiniteDouble.lt_finite_iff, beq_finite_iff, ← FiniteDouble.value_eq_value_iff]
    exact exists_precedes_iff.1 ⟨q, hq.above lo y hlo hy, hq.below hi z hhi hz⟩

/-- Ends that fit are refused for nothing but an empty range. -/
theorem checkRange_eq_emptyRange (hk : k ≠ .boolean) (hf : ∀ b, min = some b ∨ max = some b → b.Fits k)
    (h : ¬RangeFits k min max) : ∃ lo hi, min = some lo ∧ max = some hi ∧
      checkRange k min max = .error (.emptyRange lo.value hi.value) := by
  have hb : k.isBoundable = true := Kind.isBoundable_iff.2 hk
  have hcheck : ∀ b, min = some b ∨ max = some b → b.check k = .ok () := fun b hm => Bound.check_eq_ok_iff.2 (hf b hm)
  rw [← checkRange_eq_ok_iff, checkRange_steps] at h
  simp only [hb, true_and, not_and, not_forall] at h
  obtain ⟨lo, hi, hlo, hhi, hx⟩ := h (fun b hm => hcheck b (Or.inl hm)) fun b hm => hcheck b (Or.inr hm)
  refine ⟨lo, hi, hlo, hhi, ?_⟩
  unfold checkRange
  simp [hb, hlo, hhi, hcheck lo (Or.inl hlo), hcheck hi (Or.inr hhi), bind, Except.bind, throw, throwThe,
    MonadExceptOf.throw, hx]

end Ends

theorem Constraint.bounded_eq_range {k : Kind} {min max : Option Bound} (h : min ≠ none ∨ max ≠ none) :
    bounded k min max = .range k min max := by
  cases min with
  | some b => rfl
  | none =>
    cases max with
    | some b => rfl
    | none => exact absurd rfl (h.elim id id)

namespace Description

/-- **What describes a range**: its constraint, the bounds of a number or of a text after any calls that have set one,
and an expression that spells it. -/
inductive Ranges : Kind → Option Bound → Option Bound → Description → Prop
  | constraint (k : Kind) (min max : Option Bound) : Ranges k min max (.constraint (.range k min max))
  | numbers (b : NumberBounds) : b.min ≠ none ∨ b.max ≠ none → Ranges b.kind b.min b.max (.constraint b.toConstraint)
  | lengths (b : StringBounds) : b.min ≠ none ∨ b.max ≠ none → Ranges .string b.min b.max (.constraint b.toConstraint)
  | expression {text : String} {ts : List Token} {k : Kind} {min max : Option Bound} : Token.ofString text = .ok ts →
    Ranged (fun _ => false) (ts.map Token.lexeme) k min max → Ranges k min max (.expression text)

/-- A range that was built in steps is the constraint of the range. -/
theorem Ranges.constraint_or_expression {k : Kind} {min max : Option Bound} {d : Description} (h : d.Ranges k min max) :
    d = .constraint (.range k min max) ∨ ∃ text ts, d = .expression text ∧ Token.ofString text = .ok ts ∧
      Ranged (fun _ => false) (ts.map Token.lexeme) k min max := by
  cases h with
  | constraint => exact Or.inl rfl
  | numbers b hb => exact Or.inl (congrArg Description.constraint (bounded_eq_range hb))
  | lengths b hb => exact Or.inl (congrArg Description.constraint (bounded_eq_range hb))
  | expression hts h => exact Or.inr ⟨_, _, rfl, hts, h⟩

theorem Ranges.of_spells {text : String} {ls : List Lexeme} {k : Kind} {min max : Option Bound} (hs : Spells text ls)
    (h : Ranged (fun _ => false) ls k min max) : Ranges k min max (.expression text) := by
  obtain ⟨ts, hts, rfl⟩ := (hs [] delimits_nil).ofString
  exact .expression hts h

end Description

namespace Compiler

variable {k : Kind} {min max : Option Bound} {d : Description} {c : Compiler}

/-- A description of a range compiles to the range if its ends make one. -/
theorem Reached.compile_range (hc : c.Reached) (hd : d.Ranges k min max) (hf : RangeFits k min max) :
    (c.compile d).1 = .ok ⟨.leaf (.range k min max), none, c.options.maxDepth⟩ := by
  have hcheck : (range k min max).check = .ok () := checkRange_eq_ok_iff.2 hf
  refine hc.compile_eq_ok ?_
  rcases hd.constraint_or_expression with rfl | ⟨text, ts, rfl, hts, h⟩
  · exact .constraint hcheck nofun
  · have hu := Union.terms (.one (h.term hf))
    rw [(h.term hf).tidy.oneOf_singleton] at hu
    refine .expression ?_
    rw [parse, hts]
    exact ofTokens_eq_ok_iff.2 (.required hu)

/-- It is refused for what the check of the range finds. -/
theorem Reached.compile_refused (hc : c.Reached) (hd : d.Ranges k min max) (hk : k.isBoundable = true)
    {e : ConstraintError} (he : checkRange k min max = .error e) : (c.compile d).1 = .error (.constraint [] e) := by
  have hcheck : (range k min max).check = .error e := he
  refine (compile_eq_error_iff hc).2 ?_
  rcases hd.constraint_or_expression with rfl | ⟨text, ts, rfl, hts, h⟩
  · exact .head (.malformed hcheck)
  · exact .head (.unread (parse_of_ranged hts h hk he))

/-- The compiler refuses the description for a range that is empty. -/
def RefusesEmpty (c : Compiler) (d : Description) : Prop :=
  ∃ lo hi, (c.compile d).1 = .error (.constraint [] (.emptyRange lo hi))

/-- **A range is refused exactly when nothing at all lies between its ends.** -/
theorem Reached.refusesEmpty_iff (hc : c.Reached) (hd : d.Ranges k min max) (hk : k ≠ .boolean)
    (hf : ∀ b, min = some b ∨ max = some b → b.Fits k) :
    c.RefusesEmpty d ↔ ¬∃ q : ℚ, Kind.number.Contains min max q := by
  rw [← rangeFits_iff_exists hk hf]
  constructor
  · rintro ⟨lo, hi, he⟩ h
    rw [hc.compile_range hd h] at he
    cases he
  · intro h
    obtain ⟨lo, hi, -, -, he⟩ := checkRange_eq_emptyRange hk hf h
    exact ⟨lo.value, hi.value, hc.compile_refused hd (Kind.isBoundable_iff.2 hk) he⟩

/-- **Which ranges are refused, and which have a value.**  A range over numbers, whole numbers or lengths whose ends it
may have is refused exactly when nothing lies between them, and compiles as it stands otherwise.  It has a value exactly
when it reaches a measure.  So what is refused has none; and what has none is refused, unless it is hollow, which it is
not with an inclusive end that is itself a measure. -/
theorem refusesEmpty_iff_unsatisfiable (hk : k ≠ .boolean) (hf : ∀ b, min = some b ∨ max = some b → b.Fits k)
    (hd : d.Ranges k min max) (hc : c.Reached) (follow : String → Json → Bool) :
    (c.RefusesEmpty d ↔ ¬∃ q : ℚ, Kind.number.Contains min max q) ∧
    (¬c.RefusesEmpty d → (c.compile d).1 = .ok ⟨.leaf (.range k min max), none, c.options.maxDepth⟩) ∧
    ((∃ x, (range k min max).allows follow x = true) ↔ k.Reaches min max) ∧
    (c.RefusesEmpty d → ¬∃ x, (range k min max).allows follow x = true) ∧
    ((c.RefusesEmpty d ↔ ¬∃ x, (range k min max).allows follow x = true) ↔ ¬k.Hollow min max) ∧
    ((∃ b, (min = some b ∨ max = some b) ∧ b.inclusive = true ∧ (k = .integer → b.value.isIntegral = true)) →
      ¬k.Hollow min max) := by
  have hrefuses := hc.refusesEmpty_iff hd hk hf
  have hallows : (∃ x, (range k min max).allows follow x = true) ↔ k.Reaches min max :=
    Kind.exists_admitsWithin_iff hk hf
  have hreaches : k.Reaches min max → ∃ q : ℚ, Kind.number.Contains min max q := by
    rintro (⟨y, -, hy⟩ | ⟨-, rfl⟩)
    · exact ⟨y.value, hy⟩
    · exact (rangeFits_iff_exists hk hf).1 ⟨hk, hf, fun lo hi _ h => nomatch h⟩
  refine ⟨hrefuses, fun h => ?_, hallows, fun h hx => hrefuses.1 h (hreaches (hallows.1 hx)), ?_, ?_⟩
  · exact hc.compile_range hd ((rangeFits_iff_exists hk hf).2 (by_contra fun hn => h (hrefuses.2 hn)))
  · rw [hrefuses, hallows, Kind.Hollow, not_and_not_right]
    exact ⟨fun h hq => by_contra fun hn => h.2 hn hq, fun h => ⟨fun hn hr => hn (hreaches hr), fun hn hq => hn (h hq)⟩⟩
  · rintro ⟨b, hb, hi, hw⟩
    exact Kind.not_hollow_of_inclusive hk hf hb hi hw

end Compiler

section Whole

open Validator (oneDouble twoDouble)

theorem value_oneDouble : oneDouble.value = 1 := by
  have h := (Number.value_eq_intCast_iff (t := .double oneDouble) (m := 1)).2 (by decide +kernel)
  rwa [Int.cast_one] at h

/-- The ends of a range strictly between two doubles fit. -/
theorem fits_strictly {x y : FiniteDouble} (b : Bound)
    (h : some ⟨.finite x, false⟩ = some b ∨ some ⟨.finite y, false⟩ = some b) : b.Fits .integer := by
  have hfinite : b.value.isFinite = true := by
    rcases h with h | h <;> (obtain rfl := Option.some.inj h; rfl)
  exact ⟨hfinite, nofun⟩

/-- Strictly between zero and two. -/
def zeroToTwo : Constraint := range .integer (some ⟨.finite .zero, false⟩) (some ⟨.finite twoDouble, false⟩)

theorem Compiler.refusesEmpty_iff_unsatisfiable_zeroToTwo :
    ¬({} : Compiler).RefusesEmpty (.constraint zeroToTwo) ∧ ∃ x, zeroToTwo.allows (fun _ _ => false) x = true := by
  obtain ⟨-, -, hallows, hnone, -⟩ := Compiler.refusesEmpty_iff_unsatisfiable (nofun : Kind.integer ≠ .boolean)
    fits_strictly (.constraint .integer (some ⟨.finite .zero, false⟩) (some ⟨.finite twoDouble, false⟩)) (.new {})
    fun _ _ => false
  have hmeasure : Kind.integer.HasMeasure oneDouble := ⟨fun _ => ⟨1, by rw [value_oneDouble, Int.cast_one]⟩, nofun⟩
  have hzero : FiniteDouble.zero.value < oneDouble.value := FiniteDouble.value_lt_value_iff.2 (by decide +kernel)
  have htwo : oneDouble.value < twoDouble.value := FiniteDouble.value_lt_value_iff.2 (by decide +kernel)
  have hx := hallows.2 (Or.inl ⟨oneDouble, hmeasure, nofun, (forall_finite_iff rfl).2 (Or.inl hzero),
    (forall_finite_iff rfl).2 (Or.inl htwo)⟩)
  exact ⟨fun h => hnone h hx, hx⟩

theorem compile_zeroToOne {d : Description}
    (hd : d.Ranges .integer (some ⟨.finite .zero, false⟩) (some ⟨.finite oneDouble, false⟩)) :
    ∃ v, compile d = .ok v ∧ ∀ x, v.allows x = false := by
  have hlt : (Double.finite .zero).lt (.finite oneDouble) = true := by decide +kernel
  have hf : RangeFits .integer (some ⟨.finite .zero, false⟩) (some ⟨.finite oneDouble, false⟩) :=
    ⟨nofun, fits_strictly, fun lo hi hlo hhi => by cases hlo; cases hhi; exact Or.inl hlt⟩
  refine ⟨_, (Compiler.Reached.new {}).compile_range hd hf, fun x => ?_⟩
  refine Bool.eq_false_iff.2 fun hx => ?_
  -- no whole number lies strictly between zero and one
  rcases (Kind.exists_admitsWithin_iff (k := .integer) nofun fits_strictly).1 ⟨x, hx⟩ with ⟨y, hy, hc⟩ | ⟨hs, -⟩
  · obtain ⟨m, hm⟩ := hy.whole nofun
    have hpos := (forall_finite_iff rfl).1 hc.above
    have hone := (forall_finite_iff rfl).1 hc.below
    rw [hm] at hpos hone
    simp only [Precedes, Bool.false_eq_true, false_and, or_false, FiniteDouble.value_zero, value_oneDouble,
      Int.cast_pos] at hpos hone
    have hone : m < 1 := by exact_mod_cast hone
    omega
  · cases hs

/-- **A hollow range compiles**, though no value satisfies it: there is no whole number strictly between zero and one,
as an expression or with bounds that were set. -/
theorem hollow_range_compiles :
    (∃ v, compile (.expression "0 < number.integer < 1") = .ok v ∧ ∀ x, v.allows x = false) ∧
    ∃ v, compile (.constraint ((((NumberBounds.integer {}).gt (.ofNat 0)).lt (.ofNat 1)).toConstraint)) = .ok v ∧
      ∀ x, v.allows x = false := by
  constructor
  · have hzero : (Double.finite .zero).render = "0" := by decide +kernel
    have hone : (Double.finite oneDouble).render = "1" := by decide +kernel
    obtain ⟨ls, hkind, ho⟩ := exists_kind (fun _ => false) .integer
    have hlt : Spells Comparator.lt.symbol [.comparator .lt] := .comparator .lt
    have hs := ((((Spells.number (x := .finite .zero) rfl).space hlt).space hkind).space hlt).space
      (Spells.number (x := .finite oneDouble) rfl)
    rw [hzero, hone, show "0" ++ " " ++ Comparator.lt.symbol ++ " " ++ Kind.integer.keyword ++ " " ++
      Comparator.lt.symbol ++ " " ++ "1" = "0 < number.integer < 1" by decide] at hs
    refine compile_zeroToOne (.of_spells hs ?_)
    simpa using Ranged.between (.finite .zero) .lt .lt (.finite oneDouble) rfl rfl ho
  · have hzero : Double.ofNat 0 = .finite .zero := by decide +kernel
    have hone : Double.ofNat 1 = .finite oneDouble := by decide +kernel
    rw [hzero, hone]
    exact compile_zeroToOne
      (.numbers (((NumberBounds.integer {}).gt (.finite .zero)).lt (.finite oneDouble)) (Or.inl nofun))

end Whole

end Assay
