import Assay.Expression.Reader
import Assay.Proofs.Order
import Assay.Proofs.Union
/-!
# The grammar of expressions

Which lexemes spell which constraint, production by production and without regard to how they are read.  A range may
stand around a bare kind or after it (`Term`), arrays bind tighter than ranges and ranges tighter than bars, and a union
denotes `oneOf` its terms.  Whatever is spelled is tidy (`Union.tidy`), so that it passes its check, and is spelled also
when more names are defined (`Expression.mono`).
-/
namespace Assay

/-- The bound may end a range over `k`: it is finite, and as a length of strings whole and not negative. -/
structure Bound.Fits (k : Kind) (b : Bound) : Prop where
  finite : b.value.isFinite = true
  length : k = .string → b.value.lt (.ofNat 0) = false ∧ b.value.isIntegral = true

/-- **The ends make a range over `k`**: the kind has a measure, each end fits it, and something lies between them. -/
structure RangeFits (k : Kind) (min max : Option Bound) : Prop where
  boundable : k ≠ .boolean
  fits : ∀ b, min = some b ∨ max = some b → b.Fits k
  nonempty : ∀ lo hi, min = some lo → max = some hi →
    lo.value.lt hi.value = true ∨ ((lo.value == hi.value) = true ∧ lo.inclusive = true ∧ hi.inclusive = true)

theorem Kind.isBoundable_iff {k : Kind} : k.isBoundable = true ↔ k ≠ .boolean := by
  cases k <;> simp [isBoundable]

theorem Bound.check_eq_ok_iff {k : Kind} {b : Bound} : b.check k = .ok () ↔ b.Fits k := by
  unfold Bound.check
  cases hf : b.value.isFinite with
  | false => simpa using fun h : b.Fits k => by rw [h.finite] at hf; cases hf
  | true =>
    simp only [Bool.not_true, Bool.false_eq_true, if_false]
    split
    · rename_i h
      simp only [Bool.and_eq_true, Bool.or_eq_true, Bool.not_eq_true', beq_iff_eq] at h
      simp only [reduceCtorEq, false_iff]
      intro hb
      obtain ⟨h0, hi⟩ := hb.length h.1
      rw [h0, hi] at h
      simp at h
    · rename_i h
      simp only [true_iff]
      refine ⟨hf, fun hk => ?_⟩
      simpa [hk] using h

theorem excludes_eq_false_iff {lo hi : Bound} (hl : lo.value.isFinite = true) (hh : hi.value.isFinite = true) :
    lo.excludes hi = false ↔
      lo.value.lt hi.value = true ∨ ((lo.value == hi.value) = true ∧ lo.inclusive = true ∧ hi.inclusive = true) := by
  unfold Bound.excludes
  simp only [Bool.or_eq_false_iff, Bool.and_eq_false_iff, Bool.not_eq_false', Bool.and_eq_true]
  constructor
  · rintro ⟨hlt, he | hi⟩
    · refine (Double.lt_or_beq_of_not_lt hl hh hlt).imp_right fun h => ?_
      rw [he] at h
      cases h
    · exact (Double.lt_or_beq_of_not_lt hl hh hlt).imp_right fun h => ⟨h, hi⟩
  · rintro (hlt | ⟨he, hi⟩)
    · exact ⟨Double.not_lt_of_lt_or_beq (Or.inl hlt), Or.inl (Double.not_beq_of_lt hlt)⟩
    · exact ⟨Double.not_lt_of_lt_or_beq (Or.inr he), Or.inr hi⟩

namespace Constraint

/-- What the check of a range looks at, in its order. -/
theorem checkRange_steps {k : Kind} {min max : Option Bound} : checkRange k min max = .ok () ↔
    k.isBoundable = true ∧ (∀ lo, min = some lo → lo.check k = .ok ()) ∧ (∀ hi, max = some hi → hi.check k = .ok ()) ∧
      ∀ lo hi, min = some lo → max = some hi → lo.excludes hi = false := by
  unfold checkRange
  cases k.isBoundable with
  | false => simp [bind, Except.bind, throw, throwThe, MonadExceptOf.throw]
  | true =>
    cases min with
    | none =>
      cases max with
      | none => simp [pure, Except.pure]
      | some hi => cases hhi : hi.check k <;> simp [hhi, bind, Except.bind, pure, Except.pure]
    | some lo =>
      cases hlo : lo.check k with
      | error e => simp [hlo, bind, Except.bind]
      | ok _ =>
        cases max with
        | none => simp [hlo, bind, Except.bind, pure, Except.pure]
        | some hi =>
          cases hhi : hi.check k with
          | error e => simp [hlo, hhi, bind, Except.bind]
          | ok _ =>
            cases hx : lo.excludes hi <;>
              simp [hlo, hhi, hx, bind, Except.bind, pure, Except.pure, throw, throwThe, MonadExceptOf.throw]

/-- **The check of a range passes exactly when its ends make one.** -/
theorem checkRange_eq_ok_iff {k : Kind} {min max : Option Bound} :
    checkRange k min max = .ok () ↔ RangeFits k min max := by
  rw [checkRange_steps]
  constructor
  · rintro ⟨hb, hmin, hmax, hx⟩
    refine ⟨Kind.isBoundable_iff.1 hb, fun b h => ?_, fun lo hi hlo hhi => ?_⟩
    · exact Bound.check_eq_ok_iff.1 (h.elim (hmin b) (hmax b))
    · exact (excludes_eq_false_iff (Bound.check_eq_ok_iff.1 (hmin lo hlo)).finite
        (Bound.check_eq_ok_iff.1 (hmax hi hhi)).finite).1 (hx lo hi hlo hhi)
  · intro h
    refine ⟨Kind.isBoundable_iff.2 h.boundable, fun lo hlo => ?_, fun hi hhi => ?_, fun lo hi hlo hhi => ?_⟩
    · exact Bound.check_eq_ok_iff.2 (h.fits lo (Or.inl hlo))
    · exact Bound.check_eq_ok_iff.2 (h.fits hi (Or.inr hhi))
    · exact (excludes_eq_false_iff (h.fits lo (Or.inl hlo)).finite (h.fits hi (Or.inr hhi)).finite).2
        (h.nonempty lo hi hlo hhi)

end Constraint

namespace Grammar

mutual

/-- A literal, a name, a union in parentheses, or a tuple. -/
inductive Atom (isDefined : String → Bool) : List Lexeme → Constraint → Prop
  | quoted (text : String) : Atom isDefined [.quoted text] (.literal (.string text))
  | number (x : Double) : Atom isDefined [.number x] (.literal (.number x))
  | yes : Atom isDefined [.identifier "true"] (.literal (.boolean true))
  | no : Atom isDefined [.identifier "false"] (.literal (.boolean false))
  | null : Atom isDefined [.identifier "null"] (.literal .null)
  | group {ls : List Lexeme} {c : Constraint} :
    Union isDefined ls c → Atom isDefined (.openParen :: ls ++ [.closeParen]) c
  | unit : Atom isDefined [.openBracket, .closeBracket] (.tuple [])
  | tuple {ls : List Lexeme} {cs : List Constraint} :
    Items isDefined ls cs → Atom isDefined (.openBracket :: ls ++ [.closeBracket]) (.tuple cs)
  | anyString : Atom isDefined [.identifier "string"] (.kind .string)
  | format (f : Format) : Atom isDefined [.identifier "string", .dot, .identifier f.suffix] (.format f)
  | anyNumber : Atom isDefined [.identifier "number"] (.kind .number)
  | integer : Atom isDefined [.identifier "number", .dot, .identifier "integer"] (.kind .integer)
  | boolean : Atom isDefined [.identifier "boolean"] (.kind .boolean)
  | reference (name : String) (defined : isDefined name = true) (free : name ∉ keywords) :
    Atom isDefined [.identifier name] (.reference name)

/-- An atom and any number of brackets after it. -/
inductive Operand (isDefined : String → Bool) : List Lexeme → Constraint → Prop
  | atom {ls : List Lexeme} {c : Constraint} : Atom isDefined ls c → Operand isDefined ls c
  | array {ls : List Lexeme} {c : Constraint} :
    Operand isDefined ls c → Operand isDefined (ls ++ [.openBracket, .closeBracket]) (.array c)

/-- An operand, or a range around or after one that denotes a bare kind. -/
inductive Term (isDefined : String → Bool) : List Lexeme → Constraint → Prop
  | operand {ls : List Lexeme} {c : Constraint} : Operand isDefined ls c → Term isDefined ls c
  | after {ls : List Lexeme} {k : Kind} (o : Comparator) (x : Double) :
    Operand isDefined ls (.kind k) → RangeFits k (o.bounds x).1 (o.bounds x).2 →
      Term isDefined (ls ++ [.comparator o, .number x]) (.range k (o.bounds x).1 (o.bounds x).2)
  | before {ls : List Lexeme} {k : Kind} (x : Double) (o : Comparator) :
    Operand isDefined ls (.kind k) → RangeFits k (o.flip.bounds x).1 (o.flip.bounds x).2 →
      Term isDefined (.number x :: .comparator o :: ls) (.range k (o.flip.bounds x).1 (o.flip.bounds x).2)
  | between {ls : List Lexeme} {k : Kind} (lo : Double) (left right : Comparator) (hi : Double) {l r : Bool} :
    left.inclusive? = some l → right.inclusive? = some r → Operand isDefined ls (.kind k) →
      RangeFits k (some ⟨lo, l⟩) (some ⟨hi, r⟩) →
      Term isDefined (.number lo :: .comparator left :: ls ++ [.comparator right, .number hi])
        (.range k (some ⟨lo, l⟩) (some ⟨hi, r⟩))

/-- Terms with bars between them. -/
inductive Terms (isDefined : String → Bool) : List Lexeme → List Constraint → Prop
  | one {ls : List Lexeme} {c : Constraint} : Term isDefined ls c → Terms isDefined ls [c]
  | more {ls ls' : List Lexeme} {c : Constraint} {cs : List Constraint} :
    Term isDefined ls c → Terms isDefined ls' cs → Terms isDefined (ls ++ .pipe :: ls') (c :: cs)

/-- Terms with bars between them denote their union. -/
inductive Union (isDefined : String → Bool) : List Lexeme → Constraint → Prop
  | terms {ls : List Lexeme} {cs : List Constraint} : Terms isDefined ls cs → Union isDefined ls (.oneOf cs)

/-- Unions with commas between them. -/
inductive Items (isDefined : String → Bool) : List Lexeme → List Constraint → Prop
  | one {ls : List Lexeme} {c : Constraint} : Union isDefined ls c → Items isDefined ls [c]
  | more {ls ls' : List Lexeme} {c : Constraint} {cs : List Constraint} :
    Union isDefined ls c → Items isDefined ls' cs → Items isDefined (ls ++ .comma :: ls') (c :: cs)

end

/-- **A whole expression**: a union, and perhaps an optional marker after it. -/
inductive Expression (isDefined : String → Bool) : List Lexeme → Constraint → Prop
  | required {ls : List Lexeme} {c : Constraint} : Union isDefined ls c → Expression isDefined ls c
  | optional {ls : List Lexeme} {c : Constraint} :
    Union isDefined ls c → Expression isDefined (ls ++ [.question]) c.optional

variable {isDefined : String → Bool}

mutual

theorem Atom.tidy : ∀ {ls : List Lexeme} {c : Constraint}, Atom isDefined ls c → c.Tidy
  | _, _, .quoted _ => Constraint.tidy_of_not_isUnion rfl rfl
  | _, _, .number _ => Constraint.tidy_of_not_isUnion rfl rfl
  | _, _, .yes => Constraint.tidy_of_not_isUnion rfl rfl
  | _, _, .no => Constraint.tidy_of_not_isUnion rfl rfl
  | _, _, .null => Constraint.tidy_of_not_isUnion rfl rfl
  | _, _, .group h => h.tidy
  | _, _, .unit => Constraint.tidy_of_not_isUnion rfl rfl
  | _, _, .tuple h => Constraint.tidy_of_not_isUnion (Constraint.checkAll_eq_ok_iff.2 fun c hc => (h.tidy c hc).checked) rfl
  | _, _, .anyString => Constraint.tidy_of_not_isUnion rfl rfl
  | _, _, .format _ => Constraint.tidy_of_not_isUnion rfl rfl
  | _, _, .anyNumber => Constraint.tidy_of_not_isUnion rfl rfl
  | _, _, .integer => Constraint.tidy_of_not_isUnion rfl rfl
  | _, _, .boolean => Constraint.tidy_of_not_isUnion rfl rfl
  | _, _, .reference _ _ _ => Constraint.tidy_of_not_isUnion rfl rfl

theorem Operand.tidy : ∀ {ls : List Lexeme} {c : Constraint}, Operand isDefined ls c → c.Tidy
  | _, _, .atom h => h.tidy
  | _, _, .array h => Constraint.tidy_of_not_isUnion h.tidy.checked rfl

theorem Term.tidy : ∀ {ls : List Lexeme} {c : Constraint}, Term isDefined ls c → c.Tidy
  | _, _, .operand h => h.tidy
  | _, _, .after _ _ _ hr => Constraint.tidy_of_not_isUnion (Constraint.checkRange_eq_ok_iff.2 hr) rfl
  | _, _, .before _ _ _ hr => Constraint.tidy_of_not_isUnion (Constraint.checkRange_eq_ok_iff.2 hr) rfl
  | _, _, .between _ _ _ _ _ _ _ hr => Constraint.tidy_of_not_isUnion (Constraint.checkRange_eq_ok_iff.2 hr) rfl

theorem Terms.tidy : ∀ {ls : List Lexeme} {cs : List Constraint}, Terms isDefined ls cs → ∀ c ∈ cs, c.Tidy
  | _, _, .one h => List.forall_mem_singleton.2 h.tidy
  | _, _, .more h hs => List.forall_mem_cons.2 ⟨h.tidy, hs.tidy⟩

/-- **What a union of lexemes denotes is tidy.** -/
theorem Union.tidy : ∀ {ls : List Lexeme} {c : Constraint}, Union isDefined ls c → c.Tidy
  | _, _, .terms h => Constraint.tidy_oneOf (by cases h <;> exact List.cons_ne_nil _ _) h.tidy

theorem Items.tidy : ∀ {ls : List Lexeme} {cs : List Constraint}, Items isDefined ls cs → ∀ c ∈ cs, c.Tidy
  | _, _, .one h => List.forall_mem_singleton.2 h.tidy
  | _, _, .more h hs => List.forall_mem_cons.2 ⟨h.tidy, hs.tidy⟩

end

section Names

variable {isDefined' : String → Bool}

mutual

theorem Atom.mono (hd : ∀ name, isDefined name = true → isDefined' name = true) :
    ∀ {ls : List Lexeme} {c : Constraint}, Atom isDefined ls c → Atom isDefined' ls c
  | _, _, .quoted text => .quoted text
  | _, _, .number x => .number x
  | _, _, .yes => .yes
  | _, _, .no => .no
  | _, _, .null => .null
  | _, _, .group h => .group (h.mono hd)
  | _, _, .unit => .unit
  | _, _, .tuple h => .tuple (h.mono hd)
  | _, _, .anyString => .anyString
  | _, _, .format f => .format f
  | _, _, .anyNumber => .anyNumber
  | _, _, .integer => .integer
  | _, _, .boolean => .boolean
  | _, _, .reference name defined free => .reference name (hd name defined) free

theorem Operand.mono (hd : ∀ name, isDefined name = true → isDefined' name = true) :
    ∀ {ls : List Lexeme} {c : Constraint}, Operand isDefined ls c → Operand isDefined' ls c
  | _, _, .atom h => .atom (h.mono hd)
  | _, _, .array h => .array (h.mono hd)

theorem Term.mono (hd : ∀ name, isDefined name = true → isDefined' name = true) :
    ∀ {ls : List Lexeme} {c : Constraint}, Term isDefined ls c → Term isDefined' ls c
  | _, _, .operand h => .operand (h.mono hd)
  | _, _, .after o x h hr => .after o x (h.mono hd) hr
  | _, _, .before x o h hr => .before x o (h.mono hd) hr
  | _, _, .between lo left right hi hl hu h hr => .between lo left right hi hl hu (h.mono hd) hr

theorem Terms.mono (hd : ∀ name, isDefined name = true → isDefined' name = true) :
    ∀ {ls : List Lexeme} {cs : List Constraint}, Terms isDefined ls cs → Terms isDefined' ls cs
  | _, _, .one h => .one (h.mono hd)
  | _, _, .more h hs => .more (h.mono hd) (hs.mono hd)

theorem Union.mono (hd : ∀ name, isDefined name = true → isDefined' name = true) :
    ∀ {ls : List Lexeme} {c : Constraint}, Union isDefined ls c → Union isDefined' ls c
  | _, _, .terms h => .terms (h.mono hd)

theorem Items.mono (hd : ∀ name, isDefined name = true → isDefined' name = true) :
    ∀ {ls : List Lexeme} {cs : List Constraint}, Items isDefined ls cs → Items isDefined' ls cs
  | _, _, .one h => .one (h.mono hd)
  | _, _, .more h hs => .more (h.mono hd) (hs.mono hd)

end

/-- **What lexemes spell they still spell when more names are defined**: only a name that is defined already is read as
a reference. -/
theorem Expression.mono (hd : ∀ name, isDefined name = true → isDefined' name = true) {ls : List Lexeme}
    {c : Constraint} : Expression isDefined ls c → Expression isDefined' ls c
  | .required h => .required (h.mono hd)
  | .optional h => .optional (h.mono hd)

end Names

end Grammar

end Assay
