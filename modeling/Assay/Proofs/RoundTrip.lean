import Assay.Proofs.Equality
import Assay.Proofs.Reading
import Assay.Proofs.Spelling
/-!
# Printing and reading back

The text of a constraint spells lexemes that the grammar derives, on the level that the printer relies on: an operand
where brackets may follow, a term between bars, and terms for a union, whose own unions lose their grouping
(`Spellable.reread`).  What is read back allows the same values, and equals a canonical constraint (`parse_render`).
-/
namespace Assay

/-- The comparator of an upper bound to its left. -/
def Comparator.below (inclusive : Bool) : Comparator := if inclusive then .le else .lt

/-- The comparator of a lower bound to its left. -/
def Comparator.above (inclusive : Bool) : Comparator := if inclusive then .ge else .gt

theorem Comparator.bounds_below (i : Bool) (x : Double) : (below i).bounds x = (none, some ⟨x, i⟩) := by
  cases i <;> rfl

theorem Comparator.bounds_above (i : Bool) (x : Double) : (above i).bounds x = (some ⟨x, i⟩, none) := by
  cases i <;> rfl

theorem Comparator.inclusive?_below (i : Bool) : (below i).inclusive? = some i := by
  cases i <;> rfl

theorem Bound.operator_eq (b : Bound) : b.operator = (Comparator.below b.inclusive).symbol := by
  unfold Bound.operator
  cases b.inclusive <;> rfl

theorem Bound.reversed_eq (b : Bound) : b.reversed = (Comparator.above b.inclusive).symbol := by
  unfold Bound.reversed
  cases b.inclusive <;> rfl

namespace Constraint

open Grammar

mutual

/-- The literals inside a constraint, in order. -/
def literals : Constraint → List Literal
  | literal l => [l]
  | union cs => literalsAll cs
  | tuple cs => literalsAll cs
  | array c => literals c
  | optional c => literals c
  | _ => []

def literalsAll : List Constraint → List Literal
  | [] => []
  | c :: cs => literals c ++ literalsAll cs

end

mutual

/-- Nothing in the constraint is written in a roundabout way: each range has a bound, and the alternatives of a union
are distinct and no unions. -/
def Canonical : Constraint → Prop
  | range _ min max => min ≠ none ∨ max ≠ none
  | union cs => (∀ c ∈ cs, c.isUnion = false) ∧ Unrepeated cs ∧ CanonicalAll cs
  | array c => Canonical c
  | tuple cs => CanonicalAll cs
  | optional c => Canonical c
  | _ => True

def CanonicalAll : List Constraint → Prop
  | [] => True
  | c :: cs => Canonical c ∧ CanonicalAll cs

end

/-- What is read back from the text of `c`. -/
structure Agrees (c' c : Constraint) : Prop where
  allows : ∀ follow v, c'.allows follow v = c.allows follow v
  equal : c.Canonical → (c' == c) = true

theorem agrees_of_beq {c' c : Constraint} (h : (c' == c) = true) : Agrees c' c :=
  ⟨fun follow => allows_of_beq follow h, fun _ => h⟩

/-- The parts of a constraint that its text and the grammar depend on are in order. -/
structure Spellable (isDefined : String → Bool) (c : Constraint) : Prop where
  checked : c.checkInner = .ok ()
  finite : ∀ x, .number x ∈ c.literals → x.isFinite = true
  named : ∀ n ∈ c.references, isName n = true ∧ n ∉ keywords ∧ isDefined n = true

/-- The text of the constraint is derivable, on one of three levels. -/
inductive Reread (isDefined : String → Bool) (c : Constraint) : Prop
  | operand {ls : List Lexeme} {c' : Constraint} : c.isUnion = false → Spells c.render ls → Operand isDefined ls c' →
    Agrees c' c → Reread isDefined c
  | term {ls : List Lexeme} {c' : Constraint} : c.isCompound = true → c.isUnion = false → Spells c.render ls →
    Term isDefined ls c' → Agrees c' c → Reread isDefined c
  | terms {ls : List Lexeme} {cs ds : List Constraint} : c = union cs → Spells c.render ls → Terms isDefined ls ds →
    (∀ follow v, allowsAny follow ds v = allowsAny follow cs v) → (c.Canonical → beqAll ds cs = true) →
      Reread isDefined c

variable {isDefined : String → Bool} {c : Constraint} {cs ds : List Constraint}

theorem oneOf_eq_union (hu : ∀ d ∈ ds, d.isUnion = false) (hr : Unrepeated ds) (hl : 2 ≤ ds.length) :
    oneOf ds = union ds := by
  have hb : ds.flatMap branches = ds := by
    clear hr hl
    induction ds with
    | nil => rfl
    | cons d ds ih =>
      rw [List.flatMap_cons, branches_of_not_isUnion (hu d List.mem_cons_self),
        ih fun e he => hu e (List.mem_cons_of_mem d he)]
      rfl
  rcases oneOf_cases ds with ⟨d, hd, -⟩ | ⟨-, ho⟩
  · rw [hb, eraseDups_eq_self hr] at hd
    rw [hd, List.length_singleton] at hl
    exact absurd hl (by decide)
  · rw [ho, hb, eraseDups_eq_self hr]

theorem isUnion_of_beq {c d : Constraint} (h : (c == d) = true) : c.isUnion = d.isUnion := by
  cases beq_iff.1 h <;> rfl

theorem unrepeated_of_beqAll : ∀ {ds cs : List Constraint}, beqAll ds cs = true → Unrepeated cs → Unrepeated ds
  | [], [], _, _ => List.Pairwise.nil
  | d :: ds, c :: cs, h, hr => by
    obtain ⟨hc, hs⟩ := Bool.and_eq_true_iff.1 h
    obtain ⟨hh, ht⟩ := List.pairwise_cons.1 hr
    refine List.pairwise_cons.2 ⟨fun e he => ?_, unrepeated_of_beqAll hs ht⟩
    obtain ⟨a, ha, hea⟩ := exists_of_beqAll hs e he
    rw [← Bool.not_eq_true]
    intro hed
    have : (a == c) = true := beq_trans (beq_symm hea) (beq_trans hed hc)
    rw [hh a ha] at this
    cases this

namespace Reread

/-- What is read back as one term is what is read back as the only term of a union. -/
theorem terms_of_term {ls : List Lexeme} {c' : Constraint} (hu : c.isUnion = false) (hs : Spells c.render ls)
    (ht : Term isDefined ls c') (ha : Agrees c' c) : ∃ ls ds, Spells c.render ls ∧ Terms isDefined ls ds ∧
      (∀ follow v, allowsAny follow ds v = c.allows follow v) ∧ (c.Canonical → beqAll ds c.branches = true) := by
  refine ⟨ls, [c'], hs, .one ht, fun follow v => ?_, fun hc => ?_⟩
  · rw [allowsAny, allowsAny, Bool.or_false, ha.allows]
  · rw [branches_of_not_isUnion hu, beqAll, beqAll, Bool.and_true]
    exact ha.equal hc

theorem exists_terms (h : Reread isDefined c) : ∃ ls ds, Spells c.render ls ∧ Terms isDefined ls ds ∧
    (∀ follow v, allowsAny follow ds v = c.allows follow v) ∧ (c.Canonical → beqAll ds c.branches = true) := by
  cases h with
  | operand hu hs ho ha => exact terms_of_term hu hs (.operand ho) ha
  | term _ hu hs ht ha => exact terms_of_term hu hs ht ha
  | terms hu hs ht ha he =>
    subst hu
    exact ⟨_, _, hs, ht, ha, he⟩

theorem exists_union (h : Reread isDefined c) (hc : c.checkInner = .ok ()) :
    ∃ ls c', Spells c.render ls ∧ Grammar.Union isDefined ls c' ∧ Agrees c' c := by
  obtain ⟨ls, ds, hs, ht, ha, he⟩ := h.exists_terms
  refine ⟨ls, oneOf ds, hs, .terms ht, fun follow v => ?_, fun hcan => ?_⟩
  · rw [allows_oneOf, ha]
  have hb := he hcan
  cases hu : c.isUnion with
  | false =>
    rw [branches_of_not_isUnion hu] at hb
    obtain ⟨d, rfl⟩ : ∃ d, ds = [d] := List.length_eq_one_iff.1 (length_of_beqAll hb)
    rw [(ht.tidy d List.mem_cons_self).oneOf_singleton]
    exact (Bool.and_eq_true_iff.1 hb).1
  | true =>
    cases c with
    | union cs =>
      obtain ⟨hn, hr, -⟩ := hcan
      have hl : 2 ≤ ds.length := by
        rw [length_of_beqAll hb]
        exact (checkInner_union_eq_ok_iff.1 hc).1
      rw [oneOf_eq_union (fun d hd => ?_) (unrepeated_of_beqAll hb hr) hl]
      · exact beq_iff.2 (.union hb)
      · obtain ⟨c, hm, hdc⟩ := exists_of_beqAll hb d hd
        rw [isUnion_of_beq hdc, hn c hm]
    | _ => cases hu

theorem exists_operand (h : Reread isDefined c) (hc : c.isCompound = false) :
    ∃ ls c', Spells c.render ls ∧ Operand isDefined ls c' ∧ Agrees c' c := by
  cases h with
  | operand _ hs ho ha => exact ⟨_, _, hs, ho, ha⟩
  | term hn =>
    rw [hc] at hn
    cases hn
  | terms hu =>
    subst hu
    cases hc

end Reread

theorem terms_append {ls' : List Lexeme} : ∀ {ls : List Lexeme} {cs : List Constraint}, Terms isDefined ls cs →
    Terms isDefined ls' ds → Terms isDefined (ls ++ .pipe :: ls') (cs ++ ds)
  | _, _, .one h, hs => .more h hs
  | _, _, .more h hs, hs' => by
    rw [List.append_assoc]
    exact .more h (terms_append hs hs')

theorem renderAll_eq_map : ∀ cs : List Constraint, renderAll cs = cs.map render
  | [] => rfl
  | c :: cs => congrArg (c.render :: ·) (renderAll_eq_map cs)

theorem canonicalAll_iff : ∀ {cs : List Constraint}, CanonicalAll cs ↔ ∀ c ∈ cs, c.Canonical
  | [] => by simp [CanonicalAll]
  | c :: cs => by rw [CanonicalAll, List.forall_mem_cons, canonicalAll_iff]

/-- The alternatives of a union, between bars. -/
theorem exists_terms_of_reread : ∀ {cs : List Constraint}, cs ≠ [] → (∀ c ∈ cs, Reread isDefined c) →
    ∃ ls ds, Spells (" | ".intercalate (cs.map render)) ls ∧ Terms isDefined ls ds ∧
      (∀ follow v, allowsAny follow ds v = allowsAny follow cs v) ∧
        ((∀ c ∈ cs, c.Canonical ∧ c.isUnion = false) → beqAll ds cs = true)
  | [c], _, h => by
    obtain ⟨ls, ds, hs, ht, ha, he⟩ := (h c List.mem_cons_self).exists_terms
    refine ⟨ls, ds, ?_, ht, fun follow v => ?_, fun hc => ?_⟩
    · rw [List.map_singleton, String.intercalate_singleton]
      exact hs
    · rw [ha, allowsAny, allowsAny, Bool.or_false]
    · obtain ⟨hcan, hu⟩ := hc c List.mem_cons_self
      rw [← branches_of_not_isUnion hu]
      exact he hcan
  | c :: d :: cs, _, h => by
    obtain ⟨ls, ds, hs, ht, ha, he⟩ := (h c List.mem_cons_self).exists_terms
    have hds : ∀ e ∈ d :: cs, Reread isDefined e := fun e hm => h e (List.mem_cons_of_mem c hm)
    obtain ⟨ls', ds', hs', ht', ha', he'⟩ := exists_terms_of_reread (List.cons_ne_nil d cs) hds
    refine ⟨ls ++ .pipe :: ls', ds ++ ds', ?_, terms_append ht ht', fun follow v => ?_, fun hc => ?_⟩
    · rw [List.map_cons, String.intercalate_cons_of_ne_nil (by simp)]
      exact hs.bar hs'
    · rw [allowsAny_append, ha, ha']
      rfl
    · obtain ⟨⟨hcan, hu⟩, hcs⟩ := List.forall_mem_cons.1 hc
      have hb := he hcan
      rw [branches_of_not_isUnion hu] at hb
      obtain ⟨e, rfl⟩ : ∃ e, ds = [e] := List.length_eq_one_iff.1 (length_of_beqAll hb)
      exact Bool.and_eq_true_iff.2 ⟨(Bool.and_eq_true_iff.1 hb).1, he' hcs⟩

/-- The items of a tuple, between commas. -/
theorem exists_items_of_reread : ∀ {cs : List Constraint}, cs ≠ [] →
    (∀ c ∈ cs, Reread isDefined c ∧ c.checkInner = .ok ()) →
      ∃ ls ds, Spells (", ".intercalate (cs.map render)) ls ∧ Items isDefined ls ds ∧
        (∀ follow vs, allowsEach follow ds vs = allowsEach follow cs vs) ∧
          ((∀ c ∈ cs, c.Canonical) → beqAll ds cs = true)
  | [c], _, h => by
    obtain ⟨hr, hc⟩ := h c List.mem_cons_self
    obtain ⟨ls, c', hs, hu, ha⟩ := hr.exists_union hc
    refine ⟨ls, [c'], ?_, .one hu, fun follow vs => ?_, fun hcan => ?_⟩
    · rw [List.map_singleton, String.intercalate_singleton]
      exact hs
    · cases vs with
      | nil => rfl
      | cons v vs => rw [allowsEach, allowsEach, ha.allows]
    · exact Bool.and_eq_true_iff.2 ⟨ha.equal (hcan c List.mem_cons_self), rfl⟩
  | c :: d :: cs, _, h => by
    obtain ⟨hr, hc⟩ := h c List.mem_cons_self
    obtain ⟨ls, c', hs, hu, ha⟩ := hr.exists_union hc
    have hds : ∀ e ∈ d :: cs, Reread isDefined e ∧ e.checkInner = .ok () := fun e hm =>
      h e (List.mem_cons_of_mem c hm)
    obtain ⟨ls', ds, hs', hi, ha', he'⟩ := exists_items_of_reread (List.cons_ne_nil d cs) hds
    refine ⟨ls ++ .comma :: ls', c' :: ds, ?_, .more hu hi, fun follow vs => ?_, fun hcan => ?_⟩
    · rw [List.map_cons, String.intercalate_cons_of_ne_nil (by simp)]
      exact hs.comma hs'
    · cases vs with
      | nil => rfl
      | cons v vs => rw [allowsEach, allowsEach, ha.allows, ha']
    · obtain ⟨hcan, hcs⟩ := List.forall_mem_cons.1 hcan
      exact Bool.and_eq_true_iff.2 ⟨ha.equal hcan, he' hcs⟩

section Parts

theorem isName_suffix (f : Format) : isName f.suffix = true := by
  cases f <;> rfl

theorem spells_format (f : Format) :
    Spells ("string." ++ f.suffix) [.identifier "string", .dot, .identifier f.suffix] := by
  rw [show "string." = "string" ++ "." by decide]
  exact .suffix (by decide) (isName_suffix f)

theorem exists_kind (isDefined : String → Bool) (k : Kind) :
    ∃ ls, Spells k.keyword ls ∧ Operand isDefined ls (kind k) := by
  cases k with
  | string => exact ⟨_, Spells.name (by decide), .atom .anyString⟩
  | number => exact ⟨_, Spells.name (by decide), .atom .anyNumber⟩
  | integer =>
    have hs : Spells ("number" ++ "." ++ "integer") [.identifier "number", .dot, .identifier "integer"] :=
      .suffix (by decide) (by decide)
    exact ⟨_, hs, .atom .integer⟩
  | boolean => exact ⟨_, Spells.name (by decide), .atom .boolean⟩

theorem exists_literal (isDefined : String → Bool) (l : Literal) (hf : ∀ x, l = .number x → x.isFinite = true) :
    ∃ ls, Spells l.render ls ∧ Operand isDefined ls (literal l) := by
  cases l with
  | string s => exact ⟨_, Spells.quoted s, .atom (.quoted s)⟩
  | number x => exact ⟨_, Spells.number (hf x rfl), .atom (.number x)⟩
  | boolean b =>
    cases b with
    | true => exact ⟨_, Spells.name (by decide), .atom .yes⟩
    | false => exact ⟨_, Spells.name (by decide), .atom .no⟩
  | null => exact ⟨_, Spells.name (by decide), .atom .null⟩

theorem literal_beq_self {l : Literal} (hf : ∀ x, l = .number x → x.isFinite = true) : (l == l) = true := by
  refine Literal.beq_self_iff.2 fun hl => ?_
  have hx := hf _ hl
  cases hx

theorem bound_beq_self {b : Bound} (hf : b.value.isFinite = true) : (b == b) = true :=
  Bound.beq_iff.2 ⟨Double.beq_self_of_isFinite hf, rfl⟩

/-- A range without bounds allows what its kind does. -/
theorem admitsWithin_unbounded {k : Kind} (hk : k ≠ .boolean) (v : Json) : k.admitsWithin none none v = k.admits v := by
  cases k with
  | boolean => exact absurd rfl hk
  | string => cases v <;> rfl
  | number => cases v <;> rfl
  | integer =>
    cases v with
    | number n =>
      unfold Kind.admitsWithin Kind.measure? Kind.admits
      dsimp only
      cases n.isIntegral <;> rfl
    | _ => rfl

/-- A range is read back around its kind or after it, or as its bare kind. -/
theorem reread_range {k : Kind} {min max : Option Bound} (h : RangeFits k min max) :
    Reread isDefined (range k min max) := by
  obtain ⟨ls, hs, hk⟩ := exists_kind isDefined k
  cases min with
  | none =>
    cases max with
    | none =>
      exact .operand rfl hs hk ⟨fun follow v => (admitsWithin_unbounded h.boundable v).symm, fun hc => by
        rcases hc with hc | hc <;> exact absurd rfl hc⟩
    | some hi =>
      have hf := (h.fits hi (Or.inr rfl)).finite
      have ht := (hs.space (.comparator (Comparator.below hi.inclusive))).space (.number hf)
      rw [List.append_assoc, ← Bound.operator_eq] at ht
      have hg := Term.after (Comparator.below hi.inclusive) hi.value hk
      rw [Comparator.bounds_below] at hg
      exact .term rfl rfl ht (hg h) (agrees_of_beq (beq_iff.2 (.range rfl (bound_beq_self hf))))
  | some lo =>
    have hf := (h.fits lo (Or.inl rfl)).finite
    cases max with
    | none =>
      have ht := (hs.space (.comparator (Comparator.above lo.inclusive))).space (.number hf)
      rw [List.append_assoc, ← Bound.reversed_eq] at ht
      have hg := Term.after (Comparator.above lo.inclusive) lo.value hk
      rw [Comparator.bounds_above] at hg
      exact .term rfl rfl ht (hg h) (agrees_of_beq (beq_iff.2 (.range (bound_beq_self hf) rfl)))
    | some hi =>
      have hf' := (h.fits hi (Or.inr rfl)).finite
      by_cases he : ((lo.value == hi.value) && lo.inclusive && hi.inclusive) = true
      · -- Both bounds are read back from the text of the lower one.
        have hr : (range k (some lo) (some hi)).render =
            k.keyword ++ " " ++ Comparator.eq.symbol ++ " " ++ lo.value.render := calc
          _ = k.keyword ++ (" " ++ Comparator.eq.symbol ++ " ") ++ lo.value.render := if_pos he
          _ = k.keyword ++ " " ++ Comparator.eq.symbol ++ " " ++ lo.value.render := by simp only [String.append_assoc]
        have ht := (hs.space (.comparator .eq)).space (.number hf)
        rw [List.append_assoc, ← hr] at ht
        simp only [Bool.and_eq_true] at he
        obtain ⟨⟨hv, hl⟩, hh⟩ := he
        have hfits : RangeFits k (some ⟨lo.value, true⟩) (some ⟨lo.value, true⟩) := by
          refine ⟨h.boundable, fun b hb => ?_, fun a b ha hb => ?_⟩
          · have hb' : b = ⟨lo.value, true⟩ := by
              rcases hb with hb | hb <;> exact (Option.some.inj hb).symm
            rw [hb']
            exact ⟨hf, (h.fits lo (Or.inl rfl)).length⟩
          · cases ha
            cases hb
            exact Or.inr ⟨Double.beq_self_of_isFinite hf, rfl, rfl⟩
        have hb : (range k (some ⟨lo.value, true⟩) (some ⟨lo.value, true⟩) == range k (some lo) (some hi)) = true :=
          beq_iff.2 (.range (Bound.beq_iff.2 ⟨Double.beq_self_of_isFinite hf, hl.symm⟩) (Bound.beq_iff.2 ⟨hv, hh.symm⟩))
        exact .term rfl rfl ht (.after .eq lo.value hk hfits) (agrees_of_beq hb)
      · have hr : (range k (some lo) (some hi)).render =
            lo.value.render ++ " " ++ lo.operator ++ " " ++ k.keyword ++ " " ++ hi.operator ++ " " ++ hi.value.render :=
          if_neg he
        have ht := ((((Spells.number hf).space (.comparator (Comparator.below lo.inclusive))).space hs).space
          (.comparator (Comparator.below hi.inclusive))).space (.number hf')
        rw [← Bound.operator_eq, ← Bound.operator_eq, ← hr, List.append_assoc] at ht
        have hg := Term.between lo.value (Comparator.below lo.inclusive) (Comparator.below hi.inclusive) hi.value
          (Comparator.inclusive?_below _) (Comparator.inclusive?_below _) hk h
        have hb : (range k (some lo) (some hi) == range k (some lo) (some hi)) = true :=
          beq_iff.2 (.range (bound_beq_self hf) (bound_beq_self hf'))
        exact .term rfl rfl ht hg (agrees_of_beq hb)

end Parts

theorem literals_of_mem {l : Literal} (hl : l ∈ c.literals) : ∀ {cs : List Constraint}, c ∈ cs → l ∈ literalsAll cs
  | d :: cs, h => by
    rw [literalsAll]
    rcases List.mem_cons.1 h with rfl | h
    · exact List.mem_append_left _ hl
    · exact List.mem_append_right _ (literals_of_mem hl h)

theorem references_of_mem {n : String} (hn : n ∈ c.references) : ∀ {cs : List Constraint}, c ∈ cs → n ∈ referencesAll cs
  | d :: cs, h => by
    rw [referencesAll]
    rcases List.mem_cons.1 h with rfl | h
    · exact List.mem_append_left _ hn
    · exact List.mem_append_right _ (references_of_mem hn h)

namespace Spellable

theorem of_mem_union (h : Spellable isDefined (union cs)) : ∀ c ∈ cs, Spellable isDefined c := fun c hc =>
  ⟨(checkInner_union_eq_ok_iff.1 h.checked).2 c hc, fun x hx => h.finite x (literals_of_mem hx hc),
    fun n hn => h.named n (references_of_mem hn hc)⟩

theorem of_mem_tuple (h : Spellable isDefined (tuple cs)) : ∀ c ∈ cs, Spellable isDefined c := fun c hc =>
  ⟨checkAll_eq_ok_iff.1 h.checked c hc, fun x hx => h.finite x (literals_of_mem hx hc),
    fun n hn => h.named n (references_of_mem hn hc)⟩

theorem of_array (h : Spellable isDefined c.array) : Spellable isDefined c := ⟨h.checked, h.finite, h.named⟩

end Spellable

theorem reread_union (h : Spellable isDefined (union cs)) (hcs : ∀ c ∈ cs, Reread isDefined c) :
    Reread isDefined (union cs) := by
  have hne : cs ≠ [] := by
    intro hn
    have hl := (checkInner_union_eq_ok_iff.1 h.checked).1
    rw [hn] at hl
    exact absurd hl (by decide)
  obtain ⟨ls, ds, hs, ht, ha, he⟩ := exists_terms_of_reread hne hcs
  refine .terms rfl ?_ ht ha fun hcan => ?_
  · rw [render, renderAll_eq_map]
    exact hs
  · obtain ⟨hu, -, hall⟩ := hcan
    exact he fun c hc => ⟨canonicalAll_iff.1 hall c hc, hu c hc⟩

theorem reread_array (h : Spellable isDefined c) (hr : Reread isDefined c) : Reread isDefined c.array := by
  have ha' : ∀ {c' : Constraint}, Agrees c' c → Agrees c'.array c.array := fun ha =>
    ⟨fun follow v => by
      unfold allows
      rw [funext (ha.allows follow)],
    fun hcan => beq_iff.2 (.array (ha.equal hcan))⟩
  cases hn : c.isCompound with
  | false =>
    obtain ⟨ls, c', hs, ho, ha⟩ := hr.exists_operand hn
    refine .operand rfl ?_ (.array ho) (ha' ha)
    rw [render, if_neg (by rw [hn]; decide)]
    exact hs.brackets
  | true =>
    obtain ⟨ls, c', hs, hu, ha⟩ := hr.exists_union h.checked
    refine .operand rfl ?_ (.array (.atom (.group hu))) (ha' ha)
    rw [render, if_pos hn]
    exact hs.group

theorem reread_tuple (h : Spellable isDefined (tuple cs)) (hcs : ∀ c ∈ cs, Reread isDefined c) :
    Reread isDefined (tuple cs) := by
  by_cases hne : cs = []
  · subst hne
    exact .operand rfl (fun tail _ => Scans.chars rfl) (.atom .unit) (agrees_of_beq (beq_iff.2 (.tuple rfl)))
  · obtain ⟨ls, ds, hs, hi, ha, he⟩ := exists_items_of_reread hne fun c hc => ⟨hcs c hc, (h.of_mem_tuple c hc).checked⟩
    refine .operand rfl ?_ (.atom (.tuple hi)) ⟨fun follow v => ?_, fun hcan => ?_⟩
    · rw [render, renderAll_eq_map]
      exact hs.tuple
    · unfold allows
      cases v with
      | array items => exact ha follow items
      | _ => rfl
    · exact beq_iff.2 (.tuple (he (canonicalAll_iff.1 hcan)))

mutual

/-- **The text of a constraint is derivable**, as something that agrees with it. -/
theorem Spellable.reread : ∀ {c : Constraint}, Spellable isDefined c → Reread isDefined c
  | .kind k, _ => by
    obtain ⟨ls, hs, hk⟩ := exists_kind isDefined k
    exact .operand rfl hs hk (agrees_of_beq (beq_iff.2 (.kind k)))
  | .range _ _ _, h => reread_range (checkRange_eq_ok_iff.1 h.checked)
  | .format f, _ => .operand rfl (spells_format f) (.atom (.format f)) (agrees_of_beq (beq_iff.2 (.format f)))
  | .literal l, h => by
    have hf : ∀ x, l = .number x → x.isFinite = true := fun x hx => h.finite x (List.mem_singleton.2 hx.symm)
    obtain ⟨ls, hs, hl⟩ := exists_literal isDefined l hf
    exact .operand rfl hs hl (agrees_of_beq (beq_iff.2 (.literal (literal_beq_self hf))))
  | .union _, h => reread_union h (rereadAll h.of_mem_union)
  | .array _, h => reread_array h.of_array h.of_array.reread
  | .tuple _, h => reread_tuple h (rereadAll h.of_mem_tuple)
  | .optional _, h => by cases h.checked
  | .reference n, h => by
    obtain ⟨hn, hk, hd⟩ := h.named n List.mem_cons_self
    exact .operand rfl (.name hn) (.atom (.reference n hd hk)) (agrees_of_beq (beq_iff.2 (.reference n)))

theorem rereadAll : ∀ {cs : List Constraint}, (∀ c ∈ cs, Spellable isDefined c) → ∀ c ∈ cs, Reread isDefined c
  | [], _, _, hc => by cases hc
  | c :: cs, h, d, hd => by
    have hr : Reread isDefined c := (h c List.mem_cons_self).reread
    have hrs := rereadAll fun e he => h e (List.mem_cons_of_mem c he)
    rcases List.mem_cons.1 hd with he | hm
    · rw [he]
      exact hr
    · exact hrs d hm

end

/-- What is spelled is read. -/
theorem parse_of_spells {s : String} {ls : List Lexeme} (hs : Spells s ls) (he : Expression isDefined ls c) :
    parse isDefined s = .ok c := by
  obtain ⟨ts, hts, hls⟩ := (hs [] delimits_nil : Scans s.toList ls []).ofString
  rw [parse, hts]
  exact ofTokens_eq_ok_iff.2 (by rw [hls]; exact he)

/-- The text of a well-formed constraint with finite literals and defined names is read as something that agrees with
it. -/
theorem exists_agrees_render (hc : c.check = .ok ()) (hf : ∀ x, .number x ∈ c.literals → x.isFinite = true)
    (hn : ∀ n ∈ c.references, isName n = true ∧ n ∉ keywords ∧ isDefined n = true) :
      ∃ c', parse isDefined c.render = .ok c' ∧ Agrees c' c := by
  by_cases ho : ∃ d, c = optional d
  · obtain ⟨d, rfl⟩ := ho
    have hs : Spellable isDefined d := ⟨hc, hf, hn⟩
    obtain ⟨ls, d', hl, hu, ha⟩ := hs.reread.exists_union hs.checked
    exact ⟨d'.optional, parse_of_spells hl.optional (.optional hu),
      ⟨ha.allows, fun hcan => beq_iff.2 (.optional (ha.equal hcan))⟩⟩
  · have hs : Spellable isDefined c := by
      refine ⟨?_, hf, hn⟩
      cases c with
      | optional d => exact absurd ⟨d, rfl⟩ ho
      | _ => exact hc
    obtain ⟨ls, c', hl, hu, ha⟩ := hs.reread.exists_union hs.checked
    exact ⟨c', parse_of_spells hl (.required hu), ha⟩

/-- **Printing and reading back keep the meaning.**  The text of a well-formed constraint is accepted wherever its
names are defined; what is read allows the same values, and equals the constraint if that is canonical. -/
theorem exists_parse_render {isDefined : String → Bool} {c : Constraint} (hc : c.check = .ok ())
    (hf : ∀ x, .number x ∈ c.literals → x.isFinite = true) (hn : ∀ n ∈ c.references, isName n = true ∧ n ∉ keywords)
    (hd : ∀ n ∈ c.references, isDefined n = true) :
    ∃ c', parse isDefined c.render = .ok c' ∧ (∀ follow v, c'.allows follow v = c.allows follow v) ∧
      (c.Canonical → (c' == c) = true) := by
  obtain ⟨c', hp, ha⟩ := exists_agrees_render hc hf fun n hm => ⟨(hn n hm).1, (hn n hm).2, hd n hm⟩
  exact ⟨c', hp, ha.allows, ha.equal⟩

/-- Users or nulls in arrays, a rating from zero, or a text with a quote in it. -/
def usersOrRating : Constraint :=
  optional (union [array (union [reference "user", literal .null]), range .number (some ⟨.finite .zero, true⟩) none,
    literal (.string "it's")])

theorem exists_parse_render_usersOrRating : ∃ c', parse (· == "user") usersOrRating.render = .ok c' ∧
    (∀ follow v, c'.allows follow v = usersOrRating.allows follow v) ∧ (c' == usersOrRating) = true := by
  have hf : ∀ x, .number x ∈ usersOrRating.literals → x.isFinite = true := by
    intro x hx
    simp [usersOrRating, literals, literalsAll] at hx
  have hr : ∀ n ∈ usersOrRating.references, n = "user" := by
    intro n hn
    simpa [usersOrRating, references, referencesAll] using hn
  have hcan : usersOrRating.Canonical := by
    have hin : (union [reference "user", literal .null]).Canonical :=
      ⟨by simp [isUnion], List.pairwise_pair.2 rfl, trivial, trivial, trivial⟩
    refine ⟨by simp [isUnion], ?_, hin, Or.inl (Option.some_ne_none _), trivial, trivial⟩
    refine List.pairwise_cons.2 ⟨?_, List.pairwise_pair.2 rfl⟩
    simp only [List.mem_cons, List.not_mem_nil, or_false, forall_eq_or_imp, forall_eq]
    exact ⟨rfl, rfl⟩
  have hn : ∀ n ∈ usersOrRating.references, isName n = true ∧ n ∉ keywords := by
    intro n hn
    rw [hr n hn]
    exact ⟨by decide, by decide⟩
  have hd : ∀ n ∈ usersOrRating.references, (n == "user") = true := by
    intro n hn
    rw [hr n hn]
    rfl
  obtain ⟨c', hp, ha, he⟩ := exists_parse_render rfl hf hn hd
  exact ⟨c', hp, ha, he hcan⟩

end Constraint

end Assay
