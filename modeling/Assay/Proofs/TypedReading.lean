import Assay.Proofs.Conformance
import Assay.Proofs.Rounding
import Assay.Target
/-!
# Reading valid values at targets

A validator projects to a target when the target's shape accepts its own, and so every normal form conforms to the
target's shape.  Without integers and records that is enough to read it (`Target.Plain.exists_read`).  An integer target
wants an integer token, and a double becomes one only where an integral constraint checks it and only within 64 bits
with a sign: exactly then a validator that projects to integers reads a double (`read_integer_of_projectsTo`), and a
literal that is a whole number is not read when it was spelled as a double (`whole_literal_not_read`).
-/
namespace Assay

namespace Validator

/-- What reading an allowed value gives. -/
theorem read_of_allows {v : Validator} {x : Json} (h : v.allows x = true) (t : Target) :
    v.read t x = match t.read (v.normalize x) with
      | some y => .ok y
      | none => .error .mismatch := by
  have hv : v.validate x = .valid (v.normalize x) :=
    (v.validate_eq_valid_iff x _).2 ⟨(v.violations_eq_nil_iff x).2 h, rfl⟩
  cases hr : t.read (v.normalize x) <;> simp [read, hv, hr]

end Validator

section Plain

namespace Shape

/-- The optional names in a union are those in its alternatives. -/
theorem exists_of_mem_optionalNamesAll {k : String} : ∀ {ss : List Shape}, k ∈ optionalNamesAll ss →
    ∃ s ∈ ss, k ∈ s.optionalNames
  | s :: ss, h => by
    rw [optionalNamesAll] at h
    rcases List.mem_append.1 h with h | h
    · exact ⟨s, List.mem_cons_self, h⟩
    · obtain ⟨t, ht, h⟩ := exists_of_mem_optionalNamesAll h
      exact ⟨t, List.mem_cons_of_mem _ ht, h⟩

theorem exists_of_mem_optionalNames_oneOf {k : String} {ss : List Shape} (h : k ∈ (oneOf ss).optionalNames) :
    ∃ s ∈ ss, k ∈ s.optionalNames := by
  have hb : ∃ b ∈ (ss.flatMap branches).eraseDups, k ∈ b.optionalNames := by
    rcases oneOf_cases ss with ⟨s, hs, ho⟩ | ⟨-, ho⟩
    · rw [ho] at h
      exact ⟨s, hs ▸ List.mem_cons_self, h⟩
    · rw [ho, optionalNames] at h
      exact exists_of_mem_optionalNamesAll h
  obtain ⟨b, hb, hk⟩ := hb
  obtain ⟨s, hs, hb⟩ := List.mem_flatMap.1 (mem_of_mem_eraseDups hb)
  refine ⟨s, hs, ?_⟩
  cases s with
  | union ts => exact mem_optionalNamesAll hk hb
  | _ => exact List.mem_singleton.1 hb ▸ hk

end Shape

namespace Target

/-- **Targets without integers and records**: texts, flags, doubles and any values, in lists, options and boxes. -/
inductive Plain : Target → Prop
  | text : Plain text
  | flag : Plain flag
  | double : Plain double
  | any : Plain any
  | list {t : Target} : Plain t → Plain t.list
  | optional {t : Target} : Plain t → Plain t.optional
  | boxed {t : Target} : Plain t → Plain t.boxed

namespace Plain

variable {t : Target}

/-- There is no object in the shape of such a target, and so no optional field. -/
theorem not_mem_optionalNames (h : t.Plain) (k : String) : k ∉ t.shape.optionalNames := by
  induction h with
  | list _ ih => exact ih
  | boxed _ ih => exact ih
  | optional _ ih =>
    intro hk
    rw [shape] at hk
    obtain ⟨s, hs, hk⟩ := Shape.exists_of_mem_optionalNames_oneOf hk
    rcases List.mem_cons.1 hs with rfl | hs
    · exact ih hk
    · rw [List.mem_singleton.1 hs] at hk
      cases hk
  | _ => exact List.not_mem_nil

end Plain

theorem exists_readItems {read : Json → Option Json} : ∀ {items : List Json},
    (∀ x ∈ items, ∃ y, read x = some y) → ∃ ys, readItems read items = some ys
  | [], _ => ⟨[], rfl⟩
  | x :: items, h => by
    obtain ⟨y, hy⟩ := h x List.mem_cons_self
    obtain ⟨ys, hys⟩ := exists_readItems fun w hw => h w (List.mem_cons_of_mem _ hw)
    exact ⟨y :: ys, by rw [readItems, hy, hys]; rfl⟩

/-- **A value that conforms to the shape of such a target is read at it.** -/
theorem Plain.exists_read {t : Target} {named : String → Json → Prop} (h : t.Plain) :
    ∀ {x : Json}, t.shape.Conforms named x → ∃ y, t.read x = some y := by
  induction h with
  | text => intro x hx; cases hx; exact ⟨_, rfl⟩
  | flag => intro x hx; cases hx; exact ⟨_, rfl⟩
  | any => intro x _; exact ⟨x, rfl⟩
  | boxed _ ih => exact ih
  | double =>
    intro x hx
    cases hx with
    | number n =>
      have hn := n.isFinite_toDouble
      rw [read]
      cases hd : n.toDouble with
      | finite d => exact ⟨_, rfl⟩
      | _ => rw [hd] at hn; cases hn
  | list _ ih =>
    intro x hx
    cases hx with
    | array hx =>
      obtain ⟨ys, hys⟩ := exists_readItems fun w hw => ih (hx w hw)
      exact ⟨.array ys, by rw [read, hys]; rfl⟩
  | @optional t _ ih =>
    intro x hx
    rw [shape, Shape.conforms_oneOf_iff] at hx
    obtain ⟨s, hs, hx⟩ := hx
    rcases List.mem_cons.1 hs with rfl | hs
    · -- Null is read before the target inside is asked, whatever its own shape says of null.
      cases x with
      | null => exact ⟨.null, rfl⟩
      | _ => exact ih hx
    · rw [List.mem_singleton.1 hs] at hx
      cases hx
      exact ⟨.null, rfl⟩

end Target

namespace Validator

/-- **What a validator allows is read at every target without integers and records to which it projects.** -/
theorem exists_read_of_projectsTo (v : Validator) (hv : v.Compiled) (t : Target) (ht : t.Plain)
    (hp : v.projectsTo t = true) (x : Json) (hx : v.allows x = true) : ∃ y, v.read t x = .ok y := by
  have hnormal := (conforms hv hx).2
  have htarget : t.shape.Conforms (v.scope.ConformsWithin v.maxDepth) (v.normalize x) :=
    Shape.inhabits_of_accepts _ _ hp (fun k hk => absurd hk (ht.not_mem_optionalNames k)) _ hnormal
  obtain ⟨y, hy⟩ := ht.exists_read htarget
  exact ⟨y, by rw [read_of_allows hx, hy]⟩

/-- A pair of a whole number or nothing and of any number. -/
def pairs : Scope where
  definitions := [("Pair", .constraint (.tuple [.union [.kind .integer, .literal .null], .kind .number]))]

def pairTree : Tree := .leaf (.tuple [.union [.kind .integer, .literal .null], .kind .number])

theorem pairs_compile : pairs.compile {} = .ok ⟨[("Pair", pairTree)], 100⟩ := rfl

/-- A pair is read as a list of doubles of which each may be missing. -/
theorem exists_read_of_projectsTo_pair :
    (Target.list (.optional (.boxed .double))).Plain ∧
      (Validator.mk pairTree (some [("Pair", pairTree)]) 100).projectsTo (.list (.optional (.boxed .double))) = true ∧
      ∃ y, (Validator.mk pairTree (some [("Pair", pairTree)]) 100).read (.list (.optional (.boxed .double)))
        (.array [.null, .number (.integer 2 (by decide))]) = .ok y := by
  have he : ∀ e ∈ pairs.definitions, ∀ u ∈ e.2.embedded, u.Compiled :=
    List.forall_mem_singleton.2 fun _ h => nomatch h
  have hv : (Validator.mk pairTree (some [("Pair", pairTree)]) 100).Compiled :=
    .ofScope he pairs_compile (show CompiledScope.validator? _ "Pair" = some _ from rfl)
  have ht : (Target.list (.optional (.boxed .double))).Plain := .list (.optional (.boxed .double))
  have hp : (Validator.mk pairTree (some [("Pair", pairTree)]) 100).projectsTo (.list (.optional (.boxed .double))) =
      true := by
    show (Shape.array (.union [.number, .null])).accepts (.tuple [.union [.integer, .null], .number]) = true
    simp [Shape.accepts, Shape.acceptsAll, Shape.anyAccepts]
  exact ⟨ht, hp, exists_read_of_projectsTo _ hv _ ht hp _ (by decide)⟩

end Validator

end Plain

section Integers

theorem unitsPerOne_ne_zero : (unitsPerOne : Int) ≠ 0 := Int.ne_of_gt (Int.natCast_pos.2 unitsPerOne_pos)

namespace Number

/-- Whether the number token is spelled as an integer. -/
def isInteger : Number → Bool
  | integer _ _ => true
  | double _ => false

/-- The token of a whole number `n` becomes the integer `n` where integers are written and it is within 64 bits with a
sign, if it is not that already. -/
def YieldsInteger (a : Number) (written : Bool) (n : Int) : Prop :=
  a.isInteger = true ∨ written = true ∧ -0x8000000000000000 ≤ n ∧ n < 0x8000000000000000

variable {a : Number} {n : Int} {written : Bool}

theorem exists_exact (h : a.isIntegral = true) : ∃ n : Int, a.exact = n * unitsPerOne := by
  cases a with
  | integer n _ => exact ⟨n, rfl⟩
  | double d => exact ⟨d.truncate, (FiniteDouble.truncate_mul_unitsPerOne h).symm⟩

theorem truncate_of_exact {d : FiniteDouble} (h : (double d).exact = n * unitsPerOne) : d.truncate = n :=
  (congrArg (Int.tdiv · unitsPerOne) h).trans (Int.mul_tdiv_cancel n unitsPerOne_ne_zero)

theorem YieldsInteger.exists_integer (ha : a.exact = n * unitsPerOne) (h : a.YieldsInteger written n) :
    ∃ fits, (if written then (Json.number a).asInteger else .number a) = .number (.integer n fits) := by
  cases a with
  | integer m fits =>
    obtain rfl : m = n := Int.eq_of_mul_eq_mul_right unitsPerOne_ne_zero ha
    exact ⟨fits, ite_self _⟩
  | double d =>
    rcases h with h | ⟨rfl, hrange⟩
    · cases h
    · exact ⟨_, (if_pos rfl).trans (Json.asInteger_double (truncate_of_exact ha) hrange)⟩

theorem exists_double_of_not_yieldsInteger (ha : a.exact = n * unitsPerOne) (h : ¬a.YieldsInteger written n) :
    ∃ d, (if written then (Json.number a).asInteger else .number a) = .number (.double d) := by
  cases a with
  | integer m fits => exact absurd (.inl rfl) h
  | double d =>
    refine ⟨d, ?_⟩
    cases written with
    | false => rfl
    | true =>
      rw [if_pos rfl, Json.asInteger, dif_neg]
      rw [truncate_of_exact ha]
      exact fun hrange => h (.inr ⟨rfl, hrange⟩)

end Number

namespace Constraint

/-- Whether doubles that the constraint allows become integers, if they are within 64 bits: it is integral, but for
optional markers. -/
def writesIntegers : Constraint → Bool
  | optional c => writesIntegers c
  | c => c.isIntegral

/-- The normal form of a number, if all that is allowed is an integer. -/
theorem normalize_number (follow : String → Json → Json) (a : Number) : ∀ (c : Constraint),
    Shape.integer.accepts c.shape = true →
      c.normalize follow (.number a) = if c.writesIntegers then (Json.number a).asInteger else .number a
  | optional c, h => by
    rw [normalize, writesIntegers]
    exact normalize_number follow a c h
  | reference _, h => by simp [shape, Shape.accepts] at h
  | kind _, _ | range _ _ _, _ | union _, _ => by rw [normalize]; rfl
  | format _, _ | literal _, _ => by rw [normalize]; rfl
  | array _, _ | tuple _, _ => by simp [normalize, writesIntegers, isIntegral]

/-- What is allowed where integers are accepted is a whole number. -/
theorem exists_number_of_allows {allow : String → Json → Bool} {c : Constraint} {x : Json}
    (h : Shape.integer.accepts c.shape = true) (hx : c.allows allow x = true) :
      ∃ a : Number, x = .number a ∧ a.isIntegral = true := by
  have hc : c.shape.Conforms (fun _ _ => True) x ∧ c.shape.Conforms (fun _ _ => True) (c.normalize (fun _ w => w) x) :=
    c.conforms (fun _ _ _ => ⟨trivial, trivial⟩) x hx
  have hi := Shape.inhabits_of_accepts .integer c.shape h (fun k hk => nomatch hk) x hc.1
  cases hi with
  | integer ha => exact ⟨_, rfl, ha⟩

end Constraint

namespace Tree

def writesIntegers : Tree → Bool
  | leaf c => c.writesIntegers
  | _ => false

/-- Only leaves are accepted as integers. -/
theorem exists_leaf_of_accepts {t : Tree} (h : Shape.integer.accepts t.shape = true) : ∃ c, t = leaf c := by
  cases t with
  | leaf c => exact ⟨c, rfl⟩
  | _ => simp [shape, Shape.accepts] at h

end Tree

namespace Target

theorem read_integer {min max n : Int} {fits : FitsInteger n} (h : min ≤ n ∧ n ≤ max) :
    (integer min max).read (.number (.integer n fits)) = some (.number (.integer n fits)) := by
  rw [read, if_pos h]

theorem read_integer_of_not {min max n : Int} {fits : FitsInteger n} (h : ¬(min ≤ n ∧ n ≤ max)) :
    (integer min max).read (.number (.integer n fits)) = none := by
  rw [read, if_neg h]

end Target

namespace Validator

/-- **Where a validator projects to integers, what it allows is a whole number, which is read when it is in the target's
range and its normal form is spelled as an integer, and is a mismatch otherwise.** -/
theorem read_integer_of_projectsTo (v : Validator) (min max : Int) (hp : v.projectsTo (.integer min max) = true)
    (x : Json) (hx : v.allows x = true) : ∃ (a : Number) (n : Int), x = .number a ∧ a.exact = n * unitsPerOne ∧
      (a.YieldsInteger v.root.writesIntegers n ∧ min ≤ n ∧ n ≤ max →
        ∃ fits, v.read (.integer min max) x = .ok (.number (.integer n fits))) ∧
      (¬(a.YieldsInteger v.root.writesIntegers n ∧ min ≤ n ∧ n ≤ max) →
        v.read (.integer min max) x = .error .mismatch) := by
  obtain ⟨c, hc⟩ := Tree.exists_leaf_of_accepts (t := v.root) hp
  have hshape : Shape.integer.accepts c.shape = true := by
    have hs : v.root.shape = c.shape := by rw [hc, Tree.shape]
    exact hs ▸ hp
  obtain ⟨a, rfl, ha⟩ : ∃ a : Number, x = .number a ∧ a.isIntegral = true := by
    rw [allows, hc, Tree.allows] at hx
    exact Constraint.exists_number_of_allows hshape hx
  have hnormal : v.normalize (.number a) = if v.root.writesIntegers then (Json.number a).asInteger else .number a := by
    rw [normalize, hc, Tree.normalize, Tree.writesIntegers]
    exact Constraint.normalize_number _ a c hshape
  obtain ⟨n, hn⟩ := Number.exists_exact ha
  refine ⟨a, n, rfl, hn, ?_, fun h => ?_⟩
  · rintro ⟨hyields, hrange⟩
    obtain ⟨fits, he⟩ := hyields.exists_integer hn
    exact ⟨fits, by rw [read_of_allows hx, hnormal, he, Target.read_integer hrange]⟩
  · rw [read_of_allows hx, hnormal]
    by_cases hyields : a.YieldsInteger v.root.writesIntegers n
    · obtain ⟨fits, he⟩ := hyields.exists_integer hn
      rw [he, Target.read_integer_of_not fun hrange => h ⟨hyields, hrange⟩]
    · obtain ⟨d, hd⟩ := Number.exists_double_of_not_yieldsInteger hn hyields
      rw [hd]
      rfl

/-- One, spelled as a double. -/
def oneDouble : FiniteDouble := ⟨false, unitsPerOne, by decide +kernel⟩

def twoDouble : FiniteDouble := ⟨false, unitsPerOne + unitsPerOne, by decide +kernel⟩

def wholeNumber : Validator := ⟨.leaf (.kind .integer), none, 100⟩

/-- An integral kind reads two from a double. -/
theorem read_integer_of_projectsTo_wholeNumber : wholeNumber.projectsTo (.signed 64) = true ∧
    wholeNumber.allows (.number (.double twoDouble)) = true ∧
    ∃ fits, wholeNumber.read (.signed 64) (.number (.double twoDouble)) = .ok (.number (.integer 2 fits)) := by
  have hp : wholeNumber.projectsTo (.signed 64) = true := by
    show Shape.integer.accepts .integer = true
    rw [Shape.accepts.eq_def]
  have ha : wholeNumber.allows (.number (.double twoDouble)) = true := by
    show twoDouble.isIntegral = true
    decide +kernel
  obtain ⟨a, n, hx, hn, hread, -⟩ := read_integer_of_projectsTo wholeNumber _ _ hp _ ha
  cases hx
  obtain rfl : n = 2 := by
    rw [← Number.truncate_of_exact hn]
    decide +kernel
  exact ⟨hp, ha, hread ⟨.inr ⟨rfl, by decide⟩, by decide⟩⟩

/-- One or two. -/
def oneOrTwo : Constraint := .union [.literal (.number (.finite oneDouble)), .literal (.number (.finite twoDouble))]

/-- **A whole literal that was spelled as a double is not read as an integer**, although only whole literals are
allowed. -/
theorem whole_literal_not_read : ∃ v, compile (.constraint oneOrTwo) = .ok v ∧ v.projectsTo (.signed 64) = true ∧
    v.allows (.number (.double oneDouble)) = true ∧ (Number.double oneDouble).exact = 1 * unitsPerOne ∧
    v.read (.signed 64) (.number (.double oneDouble)) = .error .mismatch := by
  have hp : Shape.integer.accepts oneOrTwo.shape = true := by
    have hl : ∀ d : FiniteDouble, d.isIntegral = true →
        Shape.integer.accepts (.literal (.number (.finite d))) = true := by
      intro d hd
      rw [Shape.accepts.eq_def]
      exact hd
    refine Shape.accepts_oneOf (List.forall_mem_cons.2 ⟨hl _ ?_, List.forall_mem_singleton.2 (hl _ ?_)⟩) <;>
      decide +kernel
  have ha : (Validator.mk (.leaf oneOrTwo) none 100).allows (.number (.double oneDouble)) = true := by
    have hl : (Literal.number (.finite oneDouble)).admits (.number (.double oneDouble)) = true :=
      Double.beq_self_of_isFinite rfl
    rw [allows, Tree.allows, oneOrTwo, Constraint.allows, Constraint.allowsAny, Constraint.allows, hl, Bool.true_or]
  exact ⟨⟨.leaf oneOrTwo, none, 100⟩, rfl, hp, ha, by decide +kernel, by rw [read_of_allows ha]; rfl⟩

end Validator

end Integers

end Assay
