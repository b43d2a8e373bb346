import Assay.Proofs.ReaderSteps
/-!
# Reading is the grammar

What a reader returns is derivable from the tokens it has used (`union_of_reads` and its like), and what is derivable is
read off in front of any tokens that cannot continue it (`Union.reads` and its like).  Each level of the grammar has its
own set of tokens that may follow: a lexeme `ends` the levels below its own, and `Follows` asks that of the next one.
-/
namespace Assay

open Grammar Constraint

variable {isDefined : String → Bool}

theorem ofSuffix?_eq_some_iff {s : String} {f : Format} : Format.ofSuffix? s = some f ↔ s = f.suffix := by
  constructor
  · intro h
    have hs := List.find?_some h
    exact (beq_iff_eq.1 hs).symm
  · rintro rfl
    cases f <;> decide

section Sound

variable {ts rest : List Token} {c : Constraint} {cs : List Constraint}

theorem keywordLiteral?_eq_none_iff {name : String} :
    keywordLiteral? name = none ↔ name ≠ "true" ∧ name ≠ "false" ∧ name ≠ "null" := by
  unfold keywordLiteral?
  split
  · simp_all
  split
  · simp_all
  split
  · simp_all
  simp_all

theorem used_of_suffix {s : Option String} (h : Reads (suffix ts) s rest) :
    (s = none ∧ ts = rest) ∨ ∃ i name j, s = some name ∧ ts = ⟨.dot, i⟩ :: ⟨.identifier name, j⟩ :: rest := by
  by_cases hd : ∀ t ∈ ts.head?, t.lexeme ≠ .dot
  · obtain ⟨hs, hr⟩ := (reads_suffix_of_ne hd).1 h
    exact Or.inl ⟨hs.symm, hr⟩
  · cases ts with
    | nil => exact absurd (fun t ht => by cases ht) hd
    | cons t ts =>
      obtain ⟨l, i⟩ := t
      have hl : l = .dot := Decidable.byContradiction fun hl => hd fun t ht => by
        cases ht
        exact hl
      subst hl
      obtain ⟨name, j, hts, hs⟩ := reads_suffix_dot.1 h
      exact Or.inr ⟨i, name, j, hs, by rw [hts]⟩

theorem atom_of_ofName {name : String} {i : Nat} (hn : keywordLiteral? name = none)
    (h : ofName isDefined name i none = .ok c) : Atom isDefined [.identifier name] c := by
  unfold ofName at h
  dsimp only at h
  split at h
  · cases h
    subst name
    exact .anyString
  split at h
  · cases h
    subst name
    exact .anyNumber
  split at h
  · cases h
    subst name
    exact .boolean
  split at h
  · rename_i hs hnum hb hd
    cases h
    obtain ⟨ht, hf, hnull⟩ := keywordLiteral?_eq_none_iff.1 hn
    exact .reference name hd (by simp [keywords, *])
  · cases h

theorem atom_of_ofName_suffix {name s : String} {i : Nat} (h : ofName isDefined name i (some s) = .ok c) :
    Atom isDefined [.identifier name, .dot, .identifier s] c := by
  unfold ofName at h
  dsimp only at h
  split at h
  · split at h
    · rename_i f hf
      cases h
      subst name
      rw [ofSuffix?_eq_some_iff.1 hf]
      exact .format f
    · cases h
  split at h
  · split at h
    · cases h
      subst name s
      exact .integer
    · cases h
  split at h <;> cases h

theorem atom_of_named {name : String} {i : Nat} (h : Reads (named isDefined name i ts) c rest) :
    ∃ used, ts = used ++ rest ∧ Atom isDefined (.identifier name :: used.map Token.lexeme) c := by
  rcases reads_named_iff.1 h with ⟨l, hl, rfl, rfl⟩ | ⟨hn, s, hs, hc⟩
  · refine ⟨[], rfl, ?_⟩
    unfold keywordLiteral? at hl
    split at hl
    · cases hl
      subst name
      exact .yes
    split at hl
    · cases hl
      subst name
      exact .no
    split at hl
    · cases hl
      subst name
      exact .null
    cases hl
  · rcases used_of_suffix hs with ⟨rfl, rfl⟩ | ⟨j, name', j', rfl, rfl⟩
    · exact ⟨[], rfl, atom_of_ofName hn hc⟩
    · exact ⟨[⟨.dot, j⟩, ⟨.identifier name', j'⟩], rfl, atom_of_ofName_suffix hc⟩

theorem operand_of_arrays {d : Constraint} {ls : List Lexeme} (hc : Operand isDefined ls c)
    (h : Reads (arrays c ts) d rest) : ∃ used, ts = used ++ rest ∧ Operand isDefined (ls ++ used.map Token.lexeme) d := by
  induction c, ts using arrays.induct generalizing ls with
  | case1 c i j ts ih =>
    obtain ⟨used, rfl, ho⟩ := ih hc.array (reads_arrays_cons.1 h)
    exact ⟨⟨.openBracket, i⟩ :: ⟨.closeBracket, j⟩ :: used, rfl, by simpa using ho⟩
  | case2 c i ts hne =>
    rw [arrays] at h
    · exact absurd h not_reads_error
    · exact hne
  | case3 c ts hne hne' =>
    rw [arrays] at h
    · obtain ⟨rfl, rfl⟩ := reads_ok_iff.1 h
      exact ⟨[], rfl, by simpa using hc⟩
    · exact hne
    · exact hne'

mutual

theorem union_of_reads {ts rest : List Token} {c : Constraint} (h : Reads (readUnion isDefined ts) c rest) :
    ∃ used, ts = used ++ rest ∧ Grammar.Union isDefined (used.map Token.lexeme) c := by
  obtain ⟨_, first, between, others, hf, ho, rfl⟩ := reads_union_iff.1 h
  obtain ⟨used, rfl, ht⟩ := term_of_reads hf
  have hl := hf.fits
  obtain ⟨used', rfl, hts⟩ := terms_of_reads ht ho
  refine ⟨used ++ used', (List.append_assoc ..).symm, ?_⟩
  have hu := Union.terms hts
  rw [List.map_append]
  cases others with
  | nil => rwa [ht.tidy.oneOf_singleton] at hu
  | cons c cs => exact hu
termination_by 5 * ts.length + 3

theorem terms_of_reads {ts rest : List Token} {c : Constraint} {cs : List Constraint} {ls : List Lexeme}
    (hc : Term isDefined ls c) (h : Reads (readBranches isDefined ts) cs rest) :
    ∃ used, ts = used ++ rest ∧ Terms isDefined (ls ++ used.map Token.lexeme) (c :: cs) := by
  cases hb : bar? ts with
  | none =>
    obtain ⟨rfl, rfl⟩ := (reads_branches_of_no_bar hb).1 h
    exact ⟨[], rfl, by simpa using .one hc⟩
  | some b =>
    obtain ⟨i, ts', hl⟩ := b
    have hts := bar?_eq_some_iff.1 hb
    dsimp only at hts
    rw [hts] at h
    obtain ⟨_, d, between, others, hd, ho, rfl⟩ := reads_branches_bar.1 h
    have hl' := hd.fits
    obtain ⟨used, hu, ht⟩ := term_of_reads hd
    obtain ⟨used', hu', hts'⟩ := terms_of_reads ht ho
    refine ⟨⟨.pipe, i⟩ :: (used ++ used'), by rw [hts, hu, hu']; simp, ?_⟩
    rw [List.map_cons, List.map_append]
    exact .more hc hts'
termination_by 5 * ts.length

theorem term_of_reads {ts rest : List Token} {c : Constraint} (h : Reads (readTerm isDefined ts) c rest) :
    ∃ used, ts = used ++ rest ∧ Term isDefined (used.map Token.lexeme) c := by
  cases reads_term_iff.1 h with
  | @between lo hi left right i j i' j' after k l r hts hr hc hl hr' hf =>
    have hlen : after.length < ts.length := by rw [hts, List.length_cons, List.length_cons]; omega
    obtain ⟨used, rfl, ho⟩ := operand_of_reads hr
    refine ⟨⟨.number lo, i⟩ :: ⟨.comparator left, j⟩ :: used ++ [⟨.comparator right, j'⟩, ⟨.number hi, i'⟩], ?_, ?_⟩
    · simp [hts]
    · simpa using Term.between lo left right hi hl hr' ho hf
  | @before x o i j after k hts hr hc hf =>
    have hlen : after.length < ts.length := by rw [hts, List.length_cons, List.length_cons]; omega
    obtain ⟨used, rfl, ho⟩ := operand_of_reads hr
    exact ⟨⟨.number x, i⟩ :: ⟨.comparator o, j⟩ :: used, by simp [hts], .before x o ho hf⟩
  | @after x o i j k hl hr hc hf =>
    obtain ⟨used, rfl, ho⟩ := operand_of_reads hr
    refine ⟨used ++ [⟨.comparator o, j⟩, ⟨.number x, i⟩], by simp, ?_⟩
    rw [List.map_append]
    exact .after o x ho hf
  | operand hl hr hc =>
    obtain ⟨used, hu, ho⟩ := operand_of_reads hr
    exact ⟨used, hu, .operand ho⟩
termination_by 5 * ts.length + 2

theorem operand_of_reads {ts rest : List Token} {c : Constraint} (h : Reads (readOperand isDefined ts) c rest) :
    ∃ used, ts = used ++ rest ∧ Operand isDefined (used.map Token.lexeme) c := by
  obtain ⟨d, between, hd, hc⟩ := reads_operand_iff.1 h
  obtain ⟨used, rfl, ha⟩ := atom_of_reads hd
  obtain ⟨used', rfl, ho⟩ := operand_of_arrays (.atom ha) hc
  refine ⟨used ++ used', (List.append_assoc ..).symm, ?_⟩
  rwa [List.map_append]
termination_by 5 * ts.length + 1

theorem atom_of_reads {ts rest : List Token} {c : Constraint} (h : Reads (readAtom isDefined ts) c rest) :
    ∃ used, ts = used ++ rest ∧ Atom isDefined (used.map Token.lexeme) c := by
  cases ts with
  | nil =>
    rw [readAtom] at h
    exact absurd h not_reads_error
  | cons t ts =>
    obtain ⟨l, i⟩ := t
    cases l with
    | quoted text =>
      obtain ⟨rfl, rfl⟩ := reads_atom_quoted.1 h
      exact ⟨[_], rfl, .quoted text⟩
    | number x =>
      obtain ⟨rfl, rfl⟩ := reads_atom_number.1 h
      exact ⟨[_], rfl, .number x⟩
    | identifier name =>
      obtain ⟨used, rfl, ha⟩ := atom_of_named (reads_atom_identifier.1 h)
      exact ⟨⟨.identifier name, i⟩ :: used, rfl, ha⟩
    | openParen =>
      obtain ⟨j, hr⟩ := reads_atom_openParen.1 h
      obtain ⟨used, rfl, hu⟩ := union_of_reads hr
      refine ⟨⟨.openParen, i⟩ :: used ++ [⟨.closeParen, j⟩], by simp, ?_⟩
      rw [List.map_append]
      exact .group hu
    | openBracket =>
      rcases reads_atom_openBracket.1 h with ⟨j, rfl, rfl⟩ | ⟨_, items, hr, rfl⟩
      · exact ⟨[⟨.openBracket, i⟩, ⟨.closeBracket, j⟩], rfl, .unit⟩
      · obtain ⟨used, j, rfl, hi⟩ := items_of_reads hr
        refine ⟨⟨.openBracket, i⟩ :: used ++ [⟨.closeBracket, j⟩], by simp, ?_⟩
        rw [List.map_append]
        exact .tuple hi
    | _ =>
      rw [readAtom] at h
      exact absurd h not_reads_error
termination_by 5 * ts.length

theorem items_of_reads {i : Nat} {ts rest : List Token} {cs : List Constraint}
    (h : Reads (readItems isDefined i ts) cs rest) :
    ∃ used j, ts = used ++ ⟨.closeBracket, j⟩ :: rest ∧ Items isDefined (used.map Token.lexeme) cs := by
  obtain ⟨c, between, more, after, hc, hm, hr⟩ := reads_items_iff.1 h
  have hl := hc.fits
  have hl' := hm.fits
  obtain ⟨used, rfl, hu⟩ := union_of_reads hc
  rcases reads_separator_iff.1 hm with ⟨rfl, j, rfl⟩ | ⟨rfl, j, t, ts', rfl, _, rfl⟩
  · rcases hr with ⟨_, rfl, rfl⟩ | ⟨hf, _⟩
    · exact ⟨used, j, rfl, .one hu⟩
    · cases hf
  · rcases hr with ⟨hf, _⟩ | ⟨_, items, hi, rfl⟩
    · cases hf
    · obtain ⟨used', j', hts, hi⟩ := items_of_reads hi
      refine ⟨used ++ ⟨.comma, j⟩ :: used', j', by rw [hts]; simp, ?_⟩
      rw [List.map_append]
      exact .more hu hi
termination_by 5 * ts.length + 4

end

end Sound

/-- The levels of the grammar that a lexeme ends: unions up to 0, terms up to 1, operands up to 2, atoms up to 3. -/
def Lexeme.ends : Lexeme → Nat
  | .closeBracket | .closeParen | .comma | .question => 0
  | .pipe => 1
  | .comparator _ => 2
  | .openBracket => 3
  | _ => 4

/-- What comes next, if anything does, cannot continue a part of level `n`. -/
def Follows (n : Nat) (ts : List Token) : Prop := ∀ t ∈ ts.head?, t.lexeme.ends ≤ n

namespace Follows

variable {m n : Nat} {t : Token} {ts : List Token}

theorem mono (h : Follows m ts) (hn : m ≤ n) : Follows n ts := fun t ht => Nat.le_trans (h t ht) hn

theorem cons (h : t.lexeme.ends ≤ n) : Follows n (t :: ts) := fun _ hu => by
  cases hu
  exact h

theorem bar?_eq_none (h : Follows 0 ts) : bar? ts = none := by
  cases hb : bar? ts with
  | none => rfl
  | some b =>
    have hc := bar?_eq_some_iff.1 hb
    have := h _ (by rw [hc]; rfl)
    exact absurd this (by decide : ¬ 1 ≤ 0)

theorem comparator?_eq_none (h : Follows 1 ts) : comparator? ts = none := by
  cases hb : comparator? ts with
  | none => rfl
  | some b =>
    have hc := comparator?_eq_some_iff.1 hb
    have := h _ (by rw [hc]; rfl)
    exact absurd this (by decide : ¬ 2 ≤ 1)

theorem ne_openBracket (h : Follows 2 ts) : ∀ t ∈ ts.head?, t.lexeme ≠ .openBracket := fun t ht he => by
  have := h t ht
  rw [he] at this
  exact absurd this (by decide : ¬ 3 ≤ 2)

theorem ne_dot (h : Follows 3 ts) : ∀ t ∈ ts.head?, t.lexeme ≠ .dot := fun t ht he => by
  have := h t ht
  rw [he] at this
  exact absurd this (by decide : ¬ 4 ≤ 3)

end Follows

/-- Whether a constraint may begin with the lexeme. -/
def Lexeme.starts : Lexeme → Bool
  | .identifier _ | .number _ | .quoted _ | .openParen | .openBracket => true
  | _ => false

/-- The lexemes begin as a constraint does. -/
def Begins (ls : List Lexeme) : Prop := ∃ l ls', ls = l :: ls' ∧ l.starts = true

theorem Begins.append {ls : List Lexeme} (h : Begins ls) (ls' : List Lexeme) : Begins (ls ++ ls') := by
  obtain ⟨l, tail, rfl, hl⟩ := h
  exact ⟨l, tail ++ ls', rfl, hl⟩

namespace Grammar

variable {ls : List Lexeme} {c : Constraint} {cs : List Constraint}

theorem Atom.begins (h : Atom isDefined ls c) : Begins ls := by
  cases h <;> exact ⟨_, _, rfl, rfl⟩

theorem Operand.begins {ls : List Lexeme} {c : Constraint} (h : Operand isDefined ls c) : Begins ls := by
  cases h with
  | atom h => exact h.begins
  | array h => exact h.begins.append _

theorem Term.begins (h : Term isDefined ls c) : Begins ls := by
  cases h with
  | operand h => exact h.begins
  | after _ _ h => exact h.begins.append _
  | before => exact ⟨_, _, rfl, rfl⟩
  | between => exact ⟨_, _, rfl, rfl⟩

theorem Terms.begins (h : Terms isDefined ls cs) : Begins ls := by
  cases h with
  | one h => exact h.begins
  | more h => exact h.begins.append _

theorem Union.begins (h : Grammar.Union isDefined ls c) : Begins ls := by
  cases h with
  | terms h => exact h.begins

theorem Items.begins (h : Items isDefined ls cs) : Begins ls := by
  cases h with
  | one h => exact h.begins
  | more h => exact h.begins.append _

theorem Atom.of_number {x : Double} (h : Atom isDefined (.number x :: ls) c) :
    ls = [] ∧ c = .literal (.number x) := by
  cases h
  exact ⟨rfl, rfl⟩

/-- Only brackets follow a number in an operand. -/
theorem Operand.head_of_number {x : Double} : ∀ {ls ls' : List Lexeme} {c : Constraint}, Operand isDefined ls c →
    ls = .number x :: ls' → ∀ l ∈ ls'.head?, l = .openBracket
  | _, _, _, .atom h, he => by
    subst he
    rw [h.of_number.1]
    exact fun l hl => by cases hl
  | _, _, _, .array h, he => by
    obtain ⟨l, ls'', hs, -⟩ := h.begins
    rw [hs, List.cons_append] at he
    obtain ⟨hl, hr⟩ := List.cons.inj he
    rw [hl] at hs
    have ih := h.head_of_number hs
    rw [← hr]
    cases ls'' with
    | nil => exact fun l hl => (Option.some.inj hl).symm
    | cons l ls => exact ih

/-- An operand is not taken for the left end of a range. -/
theorem Operand.leftBound?_eq_none (h : Operand isDefined ls c) {ts rest : List Token}
    (hts : ts.map Token.lexeme = ls) (hf : Follows 1 rest ∨ ∃ k, c = .kind k) : leftBound? (ts ++ rest) = none := by
  cases hb : leftBound? (ts ++ rest) with
  | none => rfl
  | some b =>
    exfalso
    obtain ⟨x, o, j, r, hr⟩ := b
    obtain ⟨i, he⟩ := leftBound?_eq_some_iff.1 hb
    obtain ⟨l, ls', hs, -⟩ := h.begins
    cases ts with
    | nil =>
      rw [hs] at hts
      cases hts
    | cons t ts =>
      obtain ⟨rfl, he⟩ := List.cons.inj he
      rw [List.map_cons] at hts
      rcases hf with hf | ⟨k, rfl⟩
      · cases ts with
        | nil =>
          have := hf _ (by rw [show rest = _ from he]; rfl)
          exact absurd this (by decide : ¬ 2 ≤ 1)
        | cons t ts =>
          have hh := h.head_of_number hts.symm _ rfl
          rw [(List.cons.inj he).1] at hh
          cases hh
      · cases h with
        | atom h =>
          rw [← hts] at h
          cases h.of_number.2

theorem map_lexeme_eq_cons_iff {l : Lexeme} {ts : List Token} :
    ts.map Token.lexeme = l :: ls ↔ ∃ i ts', ts = ⟨l, i⟩ :: ts' ∧ ts'.map Token.lexeme = ls := by
  rw [List.map_eq_cons_iff]
  constructor
  · rintro ⟨⟨_, i⟩, ts', hts, rfl, hls⟩
    exact ⟨i, ts', hts, hls⟩
  · rintro ⟨i, ts', hts, hls⟩
    exact ⟨⟨l, i⟩, ts', hts, rfl, hls⟩

theorem map_lexeme_eq_singleton {l : Lexeme} {ts : List Token} (h : ts.map Token.lexeme = [l]) : ∃ i, ts = [⟨l, i⟩] := by
  obtain ⟨i, ts', rfl, hn⟩ := map_lexeme_eq_cons_iff.1 h
  rw [List.map_eq_nil_iff.1 hn]
  exact ⟨i, rfl⟩

theorem reads_arrays_of_follows {ts : List Token} (h : Follows 2 ts) : Reads (arrays c ts) c ts :=
  (reads_arrays_of_ne h.ne_openBracket).2 ⟨rfl, rfl⟩

theorem exists_head (rest : List Token) {ts : List Token} (h : Begins ls)
    (hts : ts.map Token.lexeme = ls) : ∃ t ts', ts ++ rest = t :: ts' ∧ t.lexeme.starts = true := by
  obtain ⟨l, ls', hs, hl⟩ := h
  cases ts with
  | nil =>
    rw [hs] at hts
    cases hts
  | cons t ts =>
    rw [hs, List.map_cons] at hts
    exact ⟨t, ts ++ rest, rfl, by rw [(List.cons.inj hts).1, hl]⟩

section Heads

variable {ts ts' : List Token} {t : Token}

theorem bar?_of_starts (h : ts = t :: ts') (ht : t.lexeme.starts = true) : bar? ts = none := by
  obtain ⟨l, i⟩ := t
  rw [h]
  cases l with
  | pipe => cases ht
  | _ => rfl

theorem closeBracket?_of_starts (h : ts = t :: ts') (ht : t.lexeme.starts = true) : closeBracket? ts = none := by
  obtain ⟨l, i⟩ := t
  rw [h]
  cases l with
  | closeBracket => cases ht
  | _ => rfl

theorem startsBranch_of_starts (h : ts = t :: ts') (ht : t.lexeme.starts = true) : startsBranch ts = true := by
  obtain ⟨l, i⟩ := t
  rw [h]
  cases l <;> first | rfl | cases ht

end Heads

theorem named_of_suffix {name : String} {s : Option String} {ts rest : List Token} {i : Nat}
    (hn : keywordLiteral? name = none) (hs : Reads (suffix ts) s rest) (hc : ofName isDefined name i s = .ok c) :
    Reads (readAtom isDefined (⟨.identifier name, i⟩ :: ts)) c rest :=
  reads_atom_identifier.2 (reads_named_iff.2 (Or.inr ⟨hn, s, hs, hc⟩))

theorem named_of_literal {name : String} {l : Literal} {ts : List Token} {i : Nat}
    (hn : keywordLiteral? name = some l) :
    Reads (readAtom isDefined (⟨.identifier name, i⟩ :: ts)) (.literal l) ts :=
  reads_atom_identifier.2 (reads_named_iff.2 (Or.inl ⟨l, hn, rfl, rfl⟩))

theorem ofName_reference {name : String} {i : Nat} (hd : isDefined name = true) (hk : name ∉ keywords) :
    ofName isDefined name i none = .ok (.reference name) := by
  simp only [keywords, List.mem_cons, List.not_mem_nil, or_false, not_or] at hk
  obtain ⟨hs, hnum, hb, -⟩ := hk
  unfold ofName
  rw [if_neg hs, if_neg hnum, if_neg hb, if_pos hd]

mutual

theorem Atom.reads : ∀ {ls : List Lexeme} {c : Constraint}, Atom isDefined ls c → ∀ {ts rest : List Token},
    ts.map Token.lexeme = ls → Follows 3 rest → Reads (readAtom isDefined (ts ++ rest)) c rest
  | _, _, .quoted text, ts, rest, hts, _ => by
    obtain ⟨i, rfl⟩ := map_lexeme_eq_singleton hts
    exact reads_atom_quoted.2 ⟨rfl, rfl⟩
  | _, _, .number x, ts, rest, hts, _ => by
    obtain ⟨i, rfl⟩ := map_lexeme_eq_singleton hts
    exact reads_atom_number.2 ⟨rfl, rfl⟩
  | _, _, .yes, ts, rest, hts, _ => by
    obtain ⟨i, rfl⟩ := map_lexeme_eq_singleton hts
    exact named_of_literal (by decide)
  | _, _, .no, ts, rest, hts, _ => by
    obtain ⟨i, rfl⟩ := map_lexeme_eq_singleton hts
    exact named_of_literal (by decide)
  | _, _, .null, ts, rest, hts, _ => by
    obtain ⟨i, rfl⟩ := map_lexeme_eq_singleton hts
    exact named_of_literal (by decide)
  | _, _, .group h, ts, rest, hts, _ => by
    obtain ⟨i, ts', rfl, hts'⟩ := map_lexeme_eq_cons_iff.1 hts
    obtain ⟨used, last, rfl, hused, hlast⟩ := List.map_eq_append_iff.1 hts'
    obtain ⟨j, rfl⟩ := map_lexeme_eq_singleton hlast
    rw [List.cons_append, List.append_assoc]
    exact reads_atom_openParen.2 ⟨j, h.reads hused (Follows.cons (Nat.le_refl 0))⟩
  | _, _, .unit, ts, rest, hts, _ => by
    obtain ⟨i, ts', rfl, hts'⟩ := map_lexeme_eq_cons_iff.1 hts
    obtain ⟨j, rfl⟩ := map_lexeme_eq_singleton hts'
    exact reads_atom_openBracket.2 (Or.inl ⟨j, rfl, rfl⟩)
  | _, _, .tuple h, ts, rest, hts, _ => by
    obtain ⟨i, ts', rfl, hts'⟩ := map_lexeme_eq_cons_iff.1 hts
    obtain ⟨used, last, rfl, hused, hlast⟩ := List.map_eq_append_iff.1 hts'
    obtain ⟨j, rfl⟩ := map_lexeme_eq_singleton hlast
    rw [List.cons_append, List.append_assoc]
    obtain ⟨t, ts, he, ht⟩ := exists_head (⟨.closeBracket, j⟩ :: rest) h.begins hused
    exact reads_atom_openBracket.2 (Or.inr ⟨closeBracket?_of_starts he ht, _, h.reads hused, rfl⟩)
  | _, _, .anyString, ts, rest, hts, hf => by
    obtain ⟨i, rfl⟩ := map_lexeme_eq_singleton hts
    exact named_of_suffix (by decide) ((reads_suffix_of_ne hf.ne_dot).2 ⟨rfl, rfl⟩) rfl
  | _, _, .format f, ts, rest, hts, _ => by
    obtain ⟨i, ts', rfl, hts'⟩ := map_lexeme_eq_cons_iff.1 hts
    obtain ⟨j, us, rfl, hus⟩ := map_lexeme_eq_cons_iff.1 hts'
    obtain ⟨k, rfl⟩ := map_lexeme_eq_singleton hus
    refine named_of_suffix (by decide) (reads_suffix_dot.2 ⟨_, k, rfl, rfl⟩) ?_
    simp [ofName, ofSuffix?_eq_some_iff.2 rfl]
  | _, _, .anyNumber, ts, rest, hts, hf => by
    obtain ⟨i, rfl⟩ := map_lexeme_eq_singleton hts
    exact named_of_suffix (by decide) ((reads_suffix_of_ne hf.ne_dot).2 ⟨rfl, rfl⟩) rfl
  | _, _, .integer, ts, rest, hts, _ => by
    obtain ⟨i, ts', rfl, hts'⟩ := map_lexeme_eq_cons_iff.1 hts
    obtain ⟨j, us, rfl, hus⟩ := map_lexeme_eq_cons_iff.1 hts'
    obtain ⟨k, rfl⟩ := map_lexeme_eq_singleton hus
    exact named_of_suffix (by decide) (reads_suffix_dot.2 ⟨_, k, rfl, rfl⟩) rfl
  | _, _, .boolean, ts, rest, hts, hf => by
    obtain ⟨i, rfl⟩ := map_lexeme_eq_singleton hts
    exact named_of_suffix (by decide) ((reads_suffix_of_ne hf.ne_dot).2 ⟨rfl, rfl⟩) rfl
  | _, _, .reference name hd hk, ts, rest, hts, hf => by
    obtain ⟨i, rfl⟩ := map_lexeme_eq_singleton hts
    refine named_of_suffix ?_ ((reads_suffix_of_ne hf.ne_dot).2 ⟨rfl, rfl⟩) (ofName_reference hd hk)
    simp only [keywords, List.mem_cons, List.not_mem_nil, or_false, not_or] at hk
    exact keywordLiteral?_eq_none_iff.2 hk.2.2.2

/-- The brackets that follow are read into the operand. -/
theorem Operand.reads : ∀ {ls : List Lexeme} {c : Constraint}, Operand isDefined ls c → ∀ {ts between rest : List Token}
    {d : Constraint}, ts.map Token.lexeme = ls → Follows 3 between → Reads (arrays c between) d rest →
      Reads (readOperand isDefined (ts ++ between)) d rest
  | _, _, .atom h, _, between, _, _, hts, hf, ha => reads_operand_iff.2 ⟨_, between, h.reads hts hf, ha⟩
  | _, _, .array h, ts, between, rest, d, hts, _, ha => by
    obtain ⟨used, last, rfl, hused, hlast⟩ := List.map_eq_append_iff.1 hts
    obtain ⟨i, ts', rfl, hts'⟩ := map_lexeme_eq_cons_iff.1 hlast
    obtain ⟨j, rfl⟩ := map_lexeme_eq_singleton hts'
    rw [List.append_assoc]
    exact h.reads hused (Follows.cons (Nat.le_refl 3)) (reads_arrays_cons.2 ha)

theorem Term.reads : ∀ {ls : List Lexeme} {c : Constraint}, Term isDefined ls c → ∀ {ts rest : List Token},
    ts.map Token.lexeme = ls → Follows 1 rest → Reads (readTerm isDefined (ts ++ rest)) c rest
  | _, _, .operand h, ts, rest, hts, hf => by
    have hr := h.reads hts (hf.mono (by decide)) (reads_arrays_of_follows (hf.mono (by decide)))
    exact reads_term_iff.2 (.operand (h.leftBound?_eq_none hts (Or.inl hf)) hr hf.comparator?_eq_none)
  | _, _, .after o x h hr, ts, rest, hts, hf => by
    obtain ⟨used, last, rfl, hused, hlast⟩ := List.map_eq_append_iff.1 hts
    obtain ⟨i, ts', rfl, hts'⟩ := map_lexeme_eq_cons_iff.1 hlast
    obtain ⟨j, rfl⟩ := map_lexeme_eq_singleton hts'
    rw [List.append_assoc]
    have hnext : Follows 2 (⟨.comparator o, i⟩ :: ⟨.number x, j⟩ :: rest) := Follows.cons (Nat.le_refl 2)
    have ho := h.reads hused (hnext.mono (by decide)) (reads_arrays_of_follows hnext)
    exact reads_term_iff.2 (.after (h.leftBound?_eq_none hused (Or.inr ⟨_, rfl⟩)) ho hf.comparator?_eq_none hr)
  | _, _, .before x o h hr, ts, rest, hts, hf => by
    obtain ⟨i, ts', rfl, hts'⟩ := map_lexeme_eq_cons_iff.1 hts
    obtain ⟨j, ts'', rfl, hts''⟩ := map_lexeme_eq_cons_iff.1 hts'
    have ho := h.reads hts'' (hf.mono (by decide)) (reads_arrays_of_follows (hf.mono (by decide)))
    exact reads_term_iff.2 (.before rfl ho hf.comparator?_eq_none hr)
  | _, _, .between lo left right hi hl hr h hx, ts, rest, hts, hf => by
    obtain ⟨i, ts', rfl, hts'⟩ := map_lexeme_eq_cons_iff.1 hts
    obtain ⟨j, ts'', rfl, hts''⟩ := map_lexeme_eq_cons_iff.1 hts'
    obtain ⟨used, last, rfl, hused, hlast⟩ := List.map_eq_append_iff.1 hts''
    obtain ⟨i', us, rfl, hus⟩ := map_lexeme_eq_cons_iff.1 hlast
    obtain ⟨j', rfl⟩ := map_lexeme_eq_singleton hus
    rw [List.cons_append, List.cons_append, List.append_assoc]
    have hnext : Follows 2 (⟨.comparator right, i'⟩ :: ⟨.number hi, j'⟩ :: rest) := Follows.cons (Nat.le_refl 2)
    have ho := h.reads hused (hnext.mono (by decide)) (reads_arrays_of_follows hnext)
    exact reads_term_iff.2 (.between rfl ho hf.comparator?_eq_none hl hr hx)

theorem Terms.reads : ∀ {ls : List Lexeme} {cs : List Constraint}, Terms isDefined ls cs → ∀ {ts rest : List Token},
    ts.map Token.lexeme = ls → Follows 0 rest → ∃ c others between, cs = c :: others ∧
      Reads (readTerm isDefined (ts ++ rest)) c between ∧ Reads (readBranches isDefined between) others rest
  | _, _, .one h, ts, rest, hts, hf =>
    ⟨_, [], rest, rfl, h.reads hts (hf.mono (by decide)), (reads_branches_of_no_bar hf.bar?_eq_none).2 ⟨rfl, rfl⟩⟩
  | _, _, .more h hs, ts, rest, hts, hf => by
    obtain ⟨used, last, rfl, hused, hlast⟩ := List.map_eq_append_iff.1 hts
    obtain ⟨i, ts', rfl, hts'⟩ := map_lexeme_eq_cons_iff.1 hlast
    obtain ⟨c, others, between, hcs, hc, ho⟩ := hs.reads hts' hf
    obtain ⟨t, ts'', he, ht⟩ := exists_head rest hs.begins hts'
    have hb := reads_branches_bar (i := i).2 ⟨startsBranch_of_starts he ht, c, between, others, hc, ho, hcs⟩
    rw [List.append_assoc]
    exact ⟨_, _, _, rfl, h.reads hused (Follows.cons (Nat.le_refl 1)), hb⟩

/-- **What is derivable is read**, in front of anything that cannot continue it. -/
theorem Union.reads : ∀ {ls : List Lexeme} {c : Constraint}, Grammar.Union isDefined ls c → ∀ {ts rest : List Token},
    ts.map Token.lexeme = ls → Follows 0 rest → Reads (readUnion isDefined (ts ++ rest)) c rest
  | _, _, .terms h, ts, rest, hts, hf => by
    obtain ⟨c, others, between, hcs, hc, ho⟩ := h.reads hts hf
    obtain ⟨t, ts', he, ht⟩ := exists_head rest h.begins hts
    refine reads_union_iff.2 ⟨bar?_of_starts he ht, c, between, others, hc, ho, ?_⟩
    cases others with
    | nil =>
      rw [hcs, (h.tidy c (by rw [hcs]; exact List.mem_cons_self)).oneOf_singleton]
      rfl
    | cons d ds =>
      rw [hcs]
      rfl

theorem Items.reads : ∀ {ls : List Lexeme} {cs : List Constraint}, Items isDefined ls cs → ∀ {ts rest : List Token}
    {i j : Nat}, ts.map Token.lexeme = ls → Reads (readItems isDefined i (ts ++ ⟨.closeBracket, j⟩ :: rest)) cs rest
  | _, _, .one h, ts, rest, i, j, hts => by
    have hs : Reads (separator i (⟨.closeBracket, j⟩ :: rest)) false rest := reads_separator_iff.2 (Or.inl ⟨rfl, j, rfl⟩)
    exact reads_items_iff.2
      ⟨_, _, false, rest, h.reads hts (Follows.cons (Nat.le_refl 0)), hs, Or.inl ⟨rfl, rfl, rfl⟩⟩
  | _, _, .more h hs, ts, rest, i, j, hts => by
    obtain ⟨used, last, rfl, hused, hlast⟩ := List.map_eq_append_iff.1 hts
    obtain ⟨k, ts', rfl, hts'⟩ := map_lexeme_eq_cons_iff.1 hlast
    obtain ⟨t, ts'', he, ht⟩ := exists_head (⟨.closeBracket, j⟩ :: rest) hs.begins hts'
    have hsep : Reads (separator i (⟨.comma, k⟩ :: (ts' ++ ⟨.closeBracket, j⟩ :: rest))) true
        (ts' ++ ⟨.closeBracket, j⟩ :: rest) := by
      refine reads_separator_iff.2 (Or.inr ⟨rfl, k, t, ts'', by rw [he], fun hl => ?_, he⟩)
      rw [hl] at ht
      cases ht
    rw [List.append_assoc]
    exact reads_items_iff.2 ⟨_, _, true, _, h.reads hused (Follows.cons (Nat.le_refl 0)), hsep,
      Or.inr ⟨rfl, _, hs.reads hts', rfl⟩⟩

end

end Grammar

/-- **A list of tokens is read as what it spells**, and refused if it spells nothing. -/
theorem Constraint.ofTokens_eq_ok_iff {ts : List Token} {c : Constraint} :
    ofTokens isDefined ts = .ok c ↔ Expression isDefined (ts.map Token.lexeme) c := by
  unfold ofTokens
  constructor
  · intro h
    split at h
    · cases h
    obtain ⟨⟨d, rest, hlt⟩, hd, h⟩ := except_bind_eq_ok_iff.1 h
    obtain ⟨used, hts, hu⟩ := union_of_reads ⟨hlt, hd⟩
    rw [hts, List.map_append]
    dsimp only at h
    have hd' : ∀ {x : Except ConstraintError Constraint}, (do let c ← x; c.check; return c) = .ok c → x = .ok c := by
      intro x hx
      obtain ⟨e, he, hc⟩ := except_bind_eq_ok_iff.1 hx
      obtain ⟨_, _, ho⟩ := except_bind_eq_ok_iff.1 hc
      exact he.trans ho
    split at h
    · cases hd' h
      simpa using Expression.required hu
    · cases hd' h
      exact .optional hu
    · cases hd' h
    · cases hd' h
    · cases hd' h
  · intro h
    have hne : ∀ {l : Lexeme} {ls' : List Lexeme}, ts.map Token.lexeme = l :: ls' → ts.isEmpty = false := fun hl => by
      obtain ⟨i, ts', rfl, -⟩ := map_lexeme_eq_cons_iff.1 hl
      rfl
    generalize hls : ts.map Token.lexeme = ls at h
    cases h with
    | required hu =>
      obtain ⟨l, ls', hs, -⟩ := hu.begins
      have hr : Reads (readUnion isDefined (ts ++ [])) c [] := hu.reads hls fun t ht => by cases ht
      rw [List.append_nil] at hr
      obtain ⟨hlt, hr⟩ := hr
      rw [if_neg (by rw [hne (hls.trans hs)]; decide), hr]
      refine except_bind_eq_ok_iff.2 ⟨_, rfl, except_bind_eq_ok_iff.2 ⟨c, rfl, ?_⟩⟩
      exact except_bind_eq_ok_iff.2 ⟨(), hu.tidy.check_eq_ok, rfl⟩
    | optional hu =>
      obtain ⟨l, ls', hs, -⟩ := hu.begins
      rw [if_neg (by rw [hne (hls.trans (by rw [hs]; rfl))]; decide)]
      obtain ⟨used, last, rfl, hused, hlast⟩ := List.map_eq_append_iff.1 hls
      obtain ⟨i, rfl⟩ := map_lexeme_eq_singleton hlast
      have hf : Follows 0 [⟨.question, i⟩] := Follows.cons (Nat.le_refl 0)
      obtain ⟨hlt, hr⟩ := hu.reads hused hf
      rw [hr]
      refine except_bind_eq_ok_iff.2 ⟨_, rfl, except_bind_eq_ok_iff.2 ⟨_, rfl, ?_⟩⟩
      exact except_bind_eq_ok_iff.2 ⟨(), hu.tidy.checked, rfl⟩

theorem Grammar.Expression.unique {ls : List Lexeme} {c d : Constraint} (hc : Expression isDefined ls c)
    (hd : Expression isDefined ls d) : c = d := by
  have hm : (ls.map fun l => (⟨l, 0⟩ : Token)).map Token.lexeme = ls := by
    rw [List.map_map]
    exact List.map_id ls
  rw [← hm, ← ofTokens_eq_ok_iff] at hc hd
  exact Except.ok.inj (hc.symm.trans hd)

/-- **An expression is accepted exactly when its tokens are derivable**, as the one constraint that they spell. -/
theorem Constraint.parse_eq_ok_iff_expression :
    (∀ (isDefined : String → Bool) (e : String) (n : Constraint), parse isDefined e = .ok n ↔
      ∃ ts, Token.ofString e = .ok ts ∧ Expression isDefined (ts.map Token.lexeme) n) ∧
    ∀ (isDefined : String → Bool) (ls : List Lexeme) (n n' : Constraint),
      Expression isDefined ls n → Expression isDefined ls n' → n = n' := by
  refine ⟨fun isDefined e n => ?_, fun isDefined ls n n' h h' => h.unique h'⟩
  unfold parse
  rw [except_bind_eq_ok_iff]
  simp only [ofTokens_eq_ok_iff]

end Assay
