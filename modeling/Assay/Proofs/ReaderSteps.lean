import Assay.Proofs.Grammar
/-!
# What each reader does

One equivalence for each reader: the calls it makes, the tokens that stand between them and the conditions it tests,
with nothing of how the remaining tokens are carried along.  `Reads result a rest` says that the result is `a` with
`rest` left over; whatever is read further is stated with these and no reader is opened again.
-/
namespace Assay

namespace Constraint

variable {α β : Type} {P Q : List Token → Prop} {ts rest : List Token}

/-- A sequence of two steps succeeds when both do. -/
theorem except_bind_eq_ok_iff {ε : Type} {x : Except ε α} {f : α → Except ε β} {b : β} :
    (x >>= f) = .ok b ↔ ∃ a, x = .ok a ∧ f a = .ok b := by
  cases x <;> simp [bind, Except.bind]

/-- The result is `a`, and `rest` is left over. -/
def Reads (result : Except ConstraintError (α × { rest : List Token // P rest })) (a : α) (rest : List Token) : Prop :=
  ∃ h, result = .ok (a, ⟨rest, h⟩)

theorem Reads.fits {result : Except ConstraintError (α × { rest : List Token // P rest })} {a : α}
    (h : Reads result a rest) : P rest := h.elim fun hp _ => hp

theorem reads_bind_iff {x : Except ConstraintError (α × { rest : List Token // P rest })}
    {f : α × { rest : List Token // P rest } → Except ConstraintError (β × { rest : List Token // Q rest })} {b : β} :
    Reads (x >>= f) b rest ↔ ∃ a between h, Reads x a between ∧ Reads (f (a, ⟨between, h⟩)) b rest := by
  unfold Reads
  simp only [except_bind_eq_ok_iff]
  constructor
  · rintro ⟨h, ⟨a, r, hr⟩, hx, hf⟩
    exact ⟨a, r, hr, ⟨hr, hx⟩, h, hf⟩
  · rintro ⟨a, r, hr, ⟨_, hx⟩, h, hf⟩
    exact ⟨h, ⟨a, r, hr⟩, hx, hf⟩

/-- After what was read comes what the reader goes on with. -/
theorem Reads.bind_eq {x : Except ConstraintError (α × { rest : List Token // P rest })} {a : α}
    (h : Reads x a rest) (f : α × { rest : List Token // P rest } → Except ConstraintError β) :
    (x >>= f) = f (a, ⟨rest, h.fits⟩) := by
  obtain ⟨_, rfl⟩ := h
  rfl

/-- A step that looks at no token. -/
theorem reads_pass_iff {x : Except ConstraintError α}
    {f : α → Except ConstraintError (β × { rest : List Token // Q rest })} {b : β} :
    Reads (x >>= f) b rest ↔ ∃ a, x = .ok a ∧ Reads (f a) b rest := by
  unfold Reads
  simp only [except_bind_eq_ok_iff]
  constructor
  · rintro ⟨h, a, hx, hf⟩
    exact ⟨a, hx, h, hf⟩
  · rintro ⟨a, hx, h, hf⟩
    exact ⟨h, a, hx, hf⟩

theorem reads_ok_iff {a b : α} {r : { rest : List Token // P rest }} :
    Reads (.ok (a, r)) b rest ↔ a = b ∧ r.1 = rest := by
  unfold Reads
  constructor
  · rintro ⟨h, he⟩
    cases he
    exact ⟨rfl, rfl⟩
  · rintro ⟨rfl, rfl⟩
    exact ⟨r.2, rfl⟩

theorem not_reads_error {b : α} {e : ConstraintError} :
    ¬ Reads (.error e : Except ConstraintError (α × { rest : List Token // P rest })) b rest := by
  rintro ⟨h, he⟩
  cases he

theorem comparator?_eq_some_iff {o : Comparator} {i : Nat} {r : Fewer ts} :
    comparator? ts = some (o, i, r) ↔ ts = ⟨.comparator o, i⟩ :: r.1 := by
  obtain ⟨r, hr⟩ := r
  unfold comparator?
  split <;> simp_all [and_assoc]

theorem leftBound?_eq_some_iff {x : Double} {o : Comparator} {j : Nat} {r : Fewer ts} :
    leftBound? ts = some (x, o, j, r) ↔ ∃ i, ts = ⟨.number x, i⟩ :: ⟨.comparator o, j⟩ :: r.1 := by
  obtain ⟨r, hr⟩ := r
  unfold leftBound?
  split
  · simp [and_assoc]
  · rename_i h
    simp only [reduceCtorEq, false_iff]
    rintro ⟨i, rfl⟩
    exact h x i o j r rfl

theorem reads_numericBound_iff {x : Double} :
    Reads (numericBound ts) x rest ↔ ∃ i, ts = ⟨.number x, i⟩ :: rest := by
  unfold numericBound
  split
  · simp [not_reads_error]
  · simp [reads_ok_iff]
  · rename_i t ts h
    simp only [not_reads_error, false_iff]
    rintro ⟨i, he⟩
    cases he
    exact h x i rfl

theorem endOfRange_eq_ok_iff {u : Unit} : endOfRange ts = .ok u ↔ comparator? ts = none := by
  unfold endOfRange
  split <;> simp_all

theorem bar?_eq_some_iff {i : Nat} {r : Fewer ts} : bar? ts = some (i, r) ↔ ts = ⟨.pipe, i⟩ :: r.1 := by
  obtain ⟨r, hr⟩ := r
  unfold bar?
  split <;> simp_all

theorem closeBracket?_eq_some_iff {r : Fewer ts} : closeBracket? ts = some r ↔ ∃ i, ts = ⟨.closeBracket, i⟩ :: r.1 := by
  obtain ⟨r, hr⟩ := r
  unfold closeBracket?
  split <;> simp_all

theorem closeParen_eq_ok_iff {i : Nat} {r : Fewer ts} :
    closeParen i ts = .ok r ↔ ∃ j, ts = ⟨.closeParen, j⟩ :: r.1 := by
  obtain ⟨r, hr⟩ := r
  cases ts with
  | nil => simp [closeParen]
  | cons t ts =>
    obtain ⟨l, j⟩ := t
    cases l <;> simp [closeParen]

/-- After an item stands the closing bracket, or a comma and something that is not a closing bracket. -/
theorem reads_separator_iff {i : Nat} {more : Bool} : Reads (separator i ts) more rest ↔
    (more = false ∧ ∃ j, ts = ⟨.closeBracket, j⟩ :: rest) ∨
      (more = true ∧ ∃ j t ts', ts = ⟨.comma, j⟩ :: t :: ts' ∧ t.lexeme ≠ .closeBracket ∧ rest = t :: ts') := by
  cases ts with
  | nil => simp [separator, not_reads_error]
  | cons t ts =>
    obtain ⟨l, j⟩ := t
    cases l with
    | closeBracket => simp [separator, reads_ok_iff, eq_comm]
    | comma =>
      cases ts with
      | nil => simp [separator, not_reads_error]
      | cons t ts =>
        by_cases ht : t.lexeme = .closeBracket
        · simp [separator, ht, not_reads_error]
        · simp only [separator, if_neg ht, reads_ok_iff]
          constructor
          · rintro ⟨rfl, rfl⟩
            exact Or.inr ⟨rfl, j, t, ts, rfl, ht, rfl⟩
          · rintro (⟨_, _, he⟩ | ⟨rfl, _, _, _, he, _, rfl⟩)
            · cases he
            · cases he
              exact ⟨rfl, rfl⟩
    | _ => simp [separator, not_reads_error]

/-- Every further pair of brackets makes one more array; a bracket that is not closed is refused. -/
theorem reads_arrays_cons {c d : Constraint} {i j : Nat} :
    Reads (arrays c (⟨.openBracket, i⟩ :: ⟨.closeBracket, j⟩ :: ts)) d rest ↔ Reads (arrays c.array ts) d rest := by
  rw [arrays, reads_bind_iff]
  simp only [reads_ok_iff]
  constructor
  · rintro ⟨d, r, h, hr, rfl, rfl⟩
    exact hr
  · intro h
    exact ⟨d, rest, h.fits, h, rfl, rfl⟩

theorem reads_arrays_of_ne {c d : Constraint} (h : ∀ t ∈ ts.head?, t.lexeme ≠ .openBracket) :
    Reads (arrays c ts) d rest ↔ c = d ∧ ts = rest := by
  unfold arrays
  split
  · exact absurd rfl (h _ rfl)
  · exact absurd rfl (h _ rfl)
  · exact reads_ok_iff

theorem reads_suffix_dot {i : Nat} {s : Option String} :
    Reads (suffix (⟨.dot, i⟩ :: ts)) s rest ↔ ∃ name j, ts = ⟨.identifier name, j⟩ :: rest ∧ s = some name := by
  cases ts with
  | nil => simp [suffix, not_reads_error]
  | cons t ts =>
    obtain ⟨l, j⟩ := t
    cases l with
    | identifier name =>
      simp only [suffix, reads_ok_iff]
      constructor
      · rintro ⟨rfl, rfl⟩
        exact ⟨name, j, rfl, rfl⟩
      · rintro ⟨_, _, he, rfl⟩
        cases he
        exact ⟨rfl, rfl⟩
    | _ => simp [suffix, not_reads_error]

theorem reads_suffix_of_ne {s : Option String} (h : ∀ t ∈ ts.head?, t.lexeme ≠ .dot) :
    Reads (suffix ts) s rest ↔ none = s ∧ ts = rest := by
  unfold suffix
  split
  · exact absurd rfl (h _ rfl)
  · exact absurd rfl (h _ rfl)
  · exact absurd rfl (h _ rfl)
  · exact reads_ok_iff

/-- A name that is no keyword literal, with the suffix after it. -/
theorem reads_named_iff {isDefined : String → Bool} {name : String} {i : Nat} {c : Constraint} :
    Reads (named isDefined name i ts) c rest ↔
      (∃ l, keywordLiteral? name = some l ∧ c = literal l ∧ ts = rest) ∨
        (keywordLiteral? name = none ∧ ∃ s, Reads (suffix ts) s rest ∧ ofName isDefined name i s = .ok c) := by
  unfold named
  cases keywordLiteral? name with
  | some l => simp [reads_ok_iff, eq_comm]
  | none =>
    rw [reads_bind_iff]
    simp only [reads_pass_iff, reads_ok_iff, reduceCtorEq, false_and, exists_false, false_or, true_and]
    constructor
    · rintro ⟨s, r, h, hs, d, hd, rfl, rfl⟩
      exact ⟨s, hs, hd⟩
    · rintro ⟨s, hs, hd⟩
      exact ⟨s, rest, hs.fits, hs, c, hd, rfl, rfl⟩

theorem boundableKind_eq_ok_iff {c : Constraint} {i : Nat} {k : Kind} :
    c.boundableKind i = .ok k ↔ c = kind k ∧ k.isBoundable = true := by
  cases c with
  | kind k' =>
    simp only [boundableKind]
    split
    · rename_i h
      simp only [Except.ok.injEq, kind.injEq, iff_self_and]
      rintro rfl
      exact h
    · rename_i h
      simp only [reduceCtorEq, kind.injEq, false_iff, not_and]
      rintro rfl
      exact h
  | _ => simp [boundableKind]

theorem rangeOf_eq_ok_iff {k : Kind} {bounds : Option Bound × Option Bound} {c : Constraint} :
    rangeOf k bounds = .ok c ↔ RangeFits k bounds.1 bounds.2 ∧ c = range k bounds.1 bounds.2 := by
  rw [← checkRange_eq_ok_iff]
  unfold rangeOf
  cases checkRange k bounds.1 bounds.2 <;> simp [bind, Except.bind, pure, Except.pure, eq_comm]

theorem rangeBetween_eq_ok_iff {k : Kind} {lo hi : Double} {left right : Comparator} {i j : Nat} {c : Constraint} :
    rangeBetween k lo left i right j hi = .ok c ↔ ∃ l r, left.inclusive? = some l ∧ right.inclusive? = some r ∧
      RangeFits k (some ⟨lo, l⟩) (some ⟨hi, r⟩) ∧ c = range k (some ⟨lo, l⟩) (some ⟨hi, r⟩) := by
  unfold rangeBetween
  cases left.inclusive? <;> cases right.inclusive? <;> simp [rangeOf_eq_ok_iff]

section Readers

variable {isDefined : String → Bool} {c : Constraint} {cs : List Constraint}

theorem reads_union_iff : Reads (readUnion isDefined ts) c rest ↔ bar? ts = none ∧
    ∃ first between others, Reads (readTerm isDefined ts) first between ∧
      Reads (readBranches isDefined between) others rest ∧
        c = if others.isEmpty then first else oneOf (first :: others) := by
  rw [readUnion]
  cases bar? ts with
  | some b => simp [not_reads_error]
  | none =>
    simp only [reads_bind_iff, reads_ok_iff, true_and]
    constructor
    · rintro ⟨first, between, h, hf, others, r, h', ho, rfl, rfl⟩
      exact ⟨first, between, others, hf, ho, rfl⟩
    · rintro ⟨first, between, others, hf, ho, rfl⟩
      exact ⟨first, between, hf.fits, hf, others, rest, ho.fits, ho, rfl, rfl⟩

theorem reads_branches_of_no_bar (h : bar? ts = none) :
    Reads (readBranches isDefined ts) cs rest ↔ [] = cs ∧ ts = rest := by
  rw [readBranches, h]
  exact reads_ok_iff

theorem reads_branches_bar {i : Nat} : Reads (readBranches isDefined (⟨.pipe, i⟩ :: ts)) cs rest ↔
    startsBranch ts = true ∧ ∃ c between others, Reads (readTerm isDefined ts) c between ∧
      Reads (readBranches isDefined between) others rest ∧ cs = c :: others := by
  have hb : bar? (⟨.pipe, i⟩ :: ts) = some (i, ⟨ts, by simp⟩) := bar?_eq_some_iff.2 rfl
  rw [readBranches, hb]
  cases hs : startsBranch ts with
  | false => simp [hs, reads_pass_iff, throw, throwThe, MonadExceptOf.throw]
  | true =>
    simp only [hs, if_true, reads_bind_iff, reads_ok_iff, true_and]
    constructor
    · rintro ⟨first, between, h, hf, others, r, h', ho, rfl, rfl⟩
      exact ⟨first, between, others, hf, ho, rfl⟩
    · rintro ⟨first, between, others, hf, ho, rfl⟩
      exact ⟨first, between, hf.fits, hf, others, rest, ho.fits, ho, rfl, rfl⟩

theorem reads_operand_iff : Reads (readOperand isDefined ts) c rest ↔
    ∃ d between, Reads (readAtom isDefined ts) d between ∧ Reads (arrays d between) c rest := by
  rw [readOperand]
  simp only [reads_bind_iff, reads_ok_iff]
  constructor
  · rintro ⟨d, between, h, hd, e, r, h', he, rfl, rfl⟩
    exact ⟨d, between, hd, he⟩
  · rintro ⟨d, between, hd, he⟩
    exact ⟨d, between, hd.fits, hd, c, rest, he.fits, he, rfl, rfl⟩

theorem reads_items_iff {i : Nat} : Reads (readItems isDefined i ts) cs rest ↔
    ∃ c between more after, Reads (readUnion isDefined ts) c between ∧ Reads (separator i between) more after ∧
      ((more = false ∧ cs = [c] ∧ after = rest) ∨
        (more = true ∧ ∃ items, Reads (readItems isDefined i after) items rest ∧ cs = c :: items)) := by
  rw [readItems]
  simp only [reads_bind_iff]
  constructor
  · rintro ⟨c, between, h, hc, more, after, h', hm, hr⟩
    refine ⟨c, between, more, after, hc, hm, ?_⟩
    cases more with
    | false =>
      obtain ⟨rfl, rfl⟩ := reads_ok_iff.1 hr
      exact Or.inl ⟨rfl, rfl, rfl⟩
    | true =>
      obtain ⟨items, r, h'', hi, ho⟩ := reads_bind_iff.1 hr
      obtain ⟨rfl, rfl⟩ := reads_ok_iff.1 ho
      exact Or.inr ⟨rfl, items, hi, rfl⟩
  · rintro ⟨c, between, more, after, hc, hm, ⟨rfl, rfl, rfl⟩ | ⟨rfl, items, hi, rfl⟩⟩
    · exact ⟨c, between, hc.fits, hc, false, after, hm.fits, hm, reads_ok_iff.2 ⟨rfl, rfl⟩⟩
    · refine ⟨c, between, hc.fits, hc, true, after, hm.fits, hm, reads_bind_iff.2 ?_⟩
      exact ⟨items, rest, hi.fits, hi, reads_ok_iff.2 ⟨rfl, rfl⟩⟩

/-- The four ways to read a term. -/
inductive TermSteps (isDefined : String → Bool) (ts rest : List Token) : Constraint → Prop
  | between {lo hi : Double} {left right : Comparator} {i j i' j' : Nat} {after : List Token} {k : Kind} {l r : Bool} :
    ts = ⟨.number lo, i⟩ :: ⟨.comparator left, j⟩ :: after →
      Reads (readOperand isDefined after) (kind k) (⟨.comparator right, j'⟩ :: ⟨.number hi, i'⟩ :: rest) →
      comparator? rest = none → left.inclusive? = some l → right.inclusive? = some r →
      RangeFits k (some ⟨lo, l⟩) (some ⟨hi, r⟩) → TermSteps isDefined ts rest (range k (some ⟨lo, l⟩) (some ⟨hi, r⟩))
  | before {x : Double} {o : Comparator} {i j : Nat} {after : List Token} {k : Kind} :
    ts = ⟨.number x, i⟩ :: ⟨.comparator o, j⟩ :: after → Reads (readOperand isDefined after) (kind k) rest →
      comparator? rest = none → RangeFits k (o.flip.bounds x).1 (o.flip.bounds x).2 →
      TermSteps isDefined ts rest (range k (o.flip.bounds x).1 (o.flip.bounds x).2)
  | after {x : Double} {o : Comparator} {i j : Nat} {k : Kind} :
    leftBound? ts = none → Reads (readOperand isDefined ts) (kind k) (⟨.comparator o, j⟩ :: ⟨.number x, i⟩ :: rest) →
      comparator? rest = none → RangeFits k (o.bounds x).1 (o.bounds x).2 →
      TermSteps isDefined ts rest (range k (o.bounds x).1 (o.bounds x).2)
  | operand {c : Constraint} :
    leftBound? ts = none → Reads (readOperand isDefined ts) c rest → comparator? rest = none →
      TermSteps isDefined ts rest c

theorem reads_term_iff : Reads (readTerm isDefined ts) c rest ↔ TermSteps isDefined ts rest c := by
  rw [readTerm]
  constructor
  · intro h
    cases hl : leftBound? ts with
    | some b =>
      obtain ⟨lo, left, j, after, ha⟩ := b
      obtain ⟨i, hts⟩ := leftBound?_eq_some_iff.1 hl
      rw [hl] at h
      obtain ⟨d, between, hd, hr, h⟩ := reads_bind_iff.1 h
      obtain ⟨k, hk, h⟩ := reads_pass_iff.1 h
      rw [(boundableKind_eq_ok_iff.1 hk).1] at hr
      dsimp only at h
      cases hc : comparator? between with
      | some b' =>
        obtain ⟨right, j', after', ha'⟩ := b'
        rw [hc] at h
        obtain ⟨hi, rest', hr', hx, h⟩ := reads_bind_iff.1 h
        obtain ⟨u, hu, h⟩ := reads_pass_iff.1 h
        obtain ⟨e, he, h⟩ := reads_pass_iff.1 h
        obtain ⟨rfl, rfl⟩ := reads_ok_iff.1 h
        obtain ⟨l, r, hl', hr'', hf, rfl⟩ := rangeBetween_eq_ok_iff.1 he
        obtain ⟨i', rfl⟩ := reads_numericBound_iff.1 hx
        rw [comparator?_eq_some_iff.1 hc] at hr
        exact .between hts hr (endOfRange_eq_ok_iff.1 hu) hl' hr'' hf
      | none =>
        rw [hc] at h
        obtain ⟨e, he, h⟩ := reads_pass_iff.1 h
        obtain ⟨rfl, rfl⟩ := reads_ok_iff.1 h
        obtain ⟨hf, rfl⟩ := rangeOf_eq_ok_iff.1 he
        exact .before hts hr hc hf
    | none =>
      rw [hl] at h
      obtain ⟨d, between, hd, hr, h⟩ := reads_bind_iff.1 h
      dsimp only at h
      cases hc : comparator? between with
      | some b' =>
        obtain ⟨right, j', after', ha'⟩ := b'
        rw [hc] at h
        obtain ⟨k, hk, h⟩ := reads_pass_iff.1 h
        rw [(boundableKind_eq_ok_iff.1 hk).1] at hr
        obtain ⟨x, rest', hr', hx, h⟩ := reads_bind_iff.1 h
        obtain ⟨u, hu, h⟩ := reads_pass_iff.1 h
        obtain ⟨e, he, h⟩ := reads_pass_iff.1 h
        obtain ⟨rfl, rfl⟩ := reads_ok_iff.1 h
        obtain ⟨hf, rfl⟩ := rangeOf_eq_ok_iff.1 he
        obtain ⟨i', rfl⟩ := reads_numericBound_iff.1 hx
        rw [comparator?_eq_some_iff.1 hc] at hr
        exact .after hl hr (endOfRange_eq_ok_iff.1 hu) hf
      | none =>
        rw [hc] at h
        obtain ⟨rfl, rfl⟩ := reads_ok_iff.1 h
        exact .operand hl hr hc
  · intro h
    have hk : ∀ {k : Kind} {min max : Option Bound} {i : Nat}, RangeFits k min max →
        (kind k).boundableKind i = .ok k := fun hf =>
      boundableKind_eq_ok_iff.2 ⟨rfl, (checkRange_steps.1 (checkRange_eq_ok_iff.2 hf)).1⟩
    cases h with
    | @between lo hi left right i j i' j' after k l r hts hr hc hl hr' hf =>
      have ha : after.length < ts.length := by rw [hts, List.length_cons, List.length_cons]; omega
      have hb : leftBound? ts = some (lo, left, j, ⟨after, ha⟩) := leftBound?_eq_some_iff.2 ⟨i, hts⟩
      rw [hb]
      refine reads_bind_iff.2 ⟨_, _, hr.fits, hr, reads_pass_iff.2 ⟨k, hk hf, ?_⟩⟩
      dsimp only [comparator?]
      have hx : Reads (numericBound (⟨.number hi, i'⟩ :: rest)) hi rest := reads_numericBound_iff.2 ⟨i', rfl⟩
      refine reads_bind_iff.2 ⟨hi, rest, hx.fits, hx, ?_⟩
      refine reads_pass_iff.2 ⟨(), endOfRange_eq_ok_iff.2 hc, ?_⟩
      exact reads_pass_iff.2 ⟨_, rangeBetween_eq_ok_iff.2 ⟨l, r, hl, hr', hf, rfl⟩, reads_ok_iff.2 ⟨rfl, rfl⟩⟩
    | @before x o i j after k hts hr hc hf =>
      have ha : after.length < ts.length := by rw [hts, List.length_cons, List.length_cons]; omega
      have hb : leftBound? ts = some (x, o, j, ⟨after, ha⟩) := leftBound?_eq_some_iff.2 ⟨i, hts⟩
      rw [hb]
      refine reads_bind_iff.2 ⟨_, _, hr.fits, hr, reads_pass_iff.2 ⟨k, hk hf, ?_⟩⟩
      dsimp only
      rw [hc]
      exact reads_pass_iff.2 ⟨_, rangeOf_eq_ok_iff.2 ⟨hf, rfl⟩, reads_ok_iff.2 ⟨rfl, rfl⟩⟩
    | @after x o i j k hl hr hc hf =>
      rw [hl]
      refine reads_bind_iff.2 ⟨_, _, hr.fits, hr, ?_⟩
      dsimp only [comparator?]
      have hx : Reads (numericBound (⟨.number x, i⟩ :: rest)) x rest := reads_numericBound_iff.2 ⟨i, rfl⟩
      refine reads_pass_iff.2 ⟨k, hk hf, reads_bind_iff.2 ⟨x, rest, hx.fits, hx, ?_⟩⟩
      refine reads_pass_iff.2 ⟨(), endOfRange_eq_ok_iff.2 hc, ?_⟩
      exact reads_pass_iff.2 ⟨_, rangeOf_eq_ok_iff.2 ⟨hf, rfl⟩, reads_ok_iff.2 ⟨rfl, rfl⟩⟩
    | operand hl hr hc =>
      rw [hl]
      refine reads_bind_iff.2 ⟨_, _, hr.fits, hr, ?_⟩
      dsimp only
      rw [hc]
      exact reads_ok_iff.2 ⟨rfl, rfl⟩

/-- What an atom may be, by its first token. -/
theorem reads_atom_quoted {text : String} {i : Nat} :
    Reads (readAtom isDefined (⟨.quoted text, i⟩ :: ts)) c rest ↔ literal (.string text) = c ∧ ts = rest := by
  rw [readAtom]
  exact reads_ok_iff

theorem reads_atom_number {x : Double} {i : Nat} :
    Reads (readAtom isDefined (⟨.number x, i⟩ :: ts)) c rest ↔ literal (.number x) = c ∧ ts = rest := by
  rw [readAtom]
  exact reads_ok_iff

theorem reads_atom_identifier {name : String} {i : Nat} :
    Reads (readAtom isDefined (⟨.identifier name, i⟩ :: ts)) c rest ↔ Reads (named isDefined name i ts) c rest := by
  rw [readAtom, reads_bind_iff]
  simp only [reads_ok_iff]
  constructor
  · rintro ⟨d, r, h, hr, rfl, rfl⟩
    exact hr
  · intro h
    exact ⟨c, rest, h.fits, h, rfl, rfl⟩

theorem reads_atom_openParen {i : Nat} : Reads (readAtom isDefined (⟨.openParen, i⟩ :: ts)) c rest ↔
    ∃ j, Reads (readUnion isDefined ts) c (⟨.closeParen, j⟩ :: rest) := by
  rw [readAtom, reads_bind_iff]
  simp only [reads_pass_iff, reads_ok_iff, closeParen_eq_ok_iff]
  constructor
  · rintro ⟨d, between, h, hd, r, ⟨j, hj⟩, rfl, rfl⟩
    rw [hj] at hd
    exact ⟨j, hd⟩
  · rintro ⟨j, h⟩
    exact ⟨c, _, h.fits, h, ⟨rest, by simp⟩, ⟨j, rfl⟩, rfl, rfl⟩

theorem reads_atom_openBracket {i : Nat} : Reads (readAtom isDefined (⟨.openBracket, i⟩ :: ts)) c rest ↔
    (∃ j, ts = ⟨.closeBracket, j⟩ :: rest ∧ tuple [] = c) ∨
      (closeBracket? ts = none ∧ ∃ items, Reads (readItems isDefined i ts) items rest ∧ tuple items = c) := by
  rw [readAtom]
  cases hb : closeBracket? ts with
  | some r =>
    obtain ⟨j, hj⟩ := closeBracket?_eq_some_iff.1 hb
    dsimp only
    rw [reads_ok_iff]
    constructor
    · rintro ⟨rfl, hr⟩
      exact Or.inl ⟨j, by rw [hj, ← hr]; rfl, rfl⟩
    · rintro (⟨j', hts, rfl⟩ | ⟨hn, _⟩)
      · exact ⟨rfl, (List.cons.inj (hj.symm.trans hts)).2⟩
      · cases hn
  | none =>
    dsimp only
    rw [reads_bind_iff]
    constructor
    · rintro ⟨items, r, h, hr, ho⟩
      obtain ⟨rfl, rfl⟩ := reads_ok_iff.1 ho
      exact Or.inr ⟨rfl, items, hr, rfl⟩
    · rintro (⟨j, rfl, rfl⟩ | ⟨_, items, hr, rfl⟩)
      · cases hb
      · exact ⟨items, rest, hr.fits, hr, reads_ok_iff.2 ⟨rfl, rfl⟩⟩

end Readers

end Constraint

end Assay
