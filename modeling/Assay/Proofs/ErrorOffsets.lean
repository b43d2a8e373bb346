import Assay.Proofs.ReadForm
/-!
# Where errors point

Every error of the grammar that has an offset points at a character of the expression that is not blank
(`Constraint.parse_error_offset`).  While an expression is scanned, lexemes and errors stand where the character read last
stands (`StandsAt`).  While its tokens are read, an error blames one of them (`ConstraintError.Blames`): each reader
blames only tokens that it was given, and gives the next reader only those.
-/
namespace Assay

open Constraint

namespace ConstraintError

/-- The offset that an error reports, if it has one. -/
def offset? : ConstraintError → Option Nat
  | unexpectedChar _ offset | unterminatedString offset | unexpectedToken _ _ offset | unknownType _ offset
  | unknownFormat _ _ offset | emptyBranch offset | unbalancedRange _ offset | unboundable _ offset
  | unbalancedBrackets offset | misplacedOptional offset => some offset
  | empty | unexpectedEnd _ | emptyRange _ _ | invalidBound _ _ _ | degenerateUnion _ => none

/-- The character that an error reports as unexpected. -/
def char? : ConstraintError → Option Char
  | unexpectedChar c _ => some c
  | _ => none

/-- The name that an error reports as unknown, or as one without the format asked for. -/
def name? : ConstraintError → Option String
  | unknownType name _ | unknownFormat name _ _ => some name
  | _ => none

/-- What an error says of the text that starts with `c` and goes on with `after`. -/
structure Describes (e : ConstraintError) (c : Char) (after : List Char) : Prop where
  char : ∀ d, e.char? = some d → d = c
  name : ∀ name, e.name? = some name → name.toList <+: c :: after

end ConstraintError

/-- In a text that starts at `start` stands, at `offset`, a character that is not blank; `P` holds of it and of the
characters after it. -/
def StandsAt (cs : List Char) (start offset : Nat) (P : Char → List Char → Prop) : Prop :=
  ∃ before c after, cs = before ++ c :: after ∧ offset = start + utf8Length before ∧ Text.isBlank c = false ∧ P c after

theorem Constraint.except_bind_eq_error_iff {ε α β : Type} {x : Except ε α} {f : α → Except ε β} {e : ε} :
    (x >>= f) = .error e ↔ x = .error e ∨ ∃ a, x = .ok a ∧ f a = .error e := by
  cases x <;> simp [bind, Except.bind]

section Scanning

variable {cs : List Char} {c : Char} {start offset : Nat} {P Q : Char → List Char → Prop} {e : ConstraintError}

theorem utf8Length_append (cs ds : List Char) : utf8Length (cs ++ ds) = utf8Length cs + utf8Length ds := by
  induction cs with
  | nil => simp [utf8Length]
  | cons c cs ih =>
    rw [List.cons_append, utf8Length, utf8Length, ih, Nat.add_assoc]

theorem utf8ByteSize_ofList (cs : List Char) : (String.ofList cs).utf8ByteSize = utf8Length cs := by
  induction cs with
  | nil => rfl
  | cons c cs ih =>
    rw [← List.singleton_append, String.ofList_append, String.utf8ByteSize_append, ih, utf8Length_append]
    simp [utf8Length]

theorem utf8Length_toList (s : String) : utf8Length s.toList = s.utf8ByteSize := by
  rw [← utf8ByteSize_ofList, String.ofList_toList]

namespace StandsAt

theorem here (hb : Text.isBlank c = false) (h : P c cs) : StandsAt (c :: cs) start start P :=
  ⟨[], c, cs, rfl, rfl, hb, h⟩

/-- It stands behind what comes before. -/
theorem behind (front : List Char) (h : StandsAt cs (start + utf8Length front) offset P) :
    StandsAt (front ++ cs) start offset P := by
  obtain ⟨before, c, after, rfl, rfl, hb, hp⟩ := h
  exact ⟨front ++ before, c, after, (List.append_assoc ..).symm, by rw [utf8Length_append, Nat.add_assoc], hb, hp⟩

/-- It stands behind a lexeme that is read off. -/
theorem behind_lexeme {n : Nat} (h : StandsAt (cs.drop n) (start + utf8Length (c :: cs.take n)) offset P) :
    StandsAt (c :: cs) start offset P := by
  have hs := h.behind (c :: cs.take n)
  rwa [List.cons_append, List.take_append_drop] at hs

theorem mono (h : StandsAt cs start offset P) (hpq : ∀ c after, P c after → Q c after) : StandsAt cs start offset Q := by
  obtain ⟨before, c, after, hcs, ho, hb, hp⟩ := h
  exact ⟨before, c, after, hcs, ho, hb, hpq c after hp⟩

end StandsAt

/-- A lexeme that is a name starts the text with it. -/
def Lexeme.Names (l : Lexeme) (c : Char) (after : List Char) : Prop :=
  ∀ name, l = .identifier name → name.toList <+: c :: after

/-- **A character that starts no lexeme is refused where it stands**, and so is a quote that is not closed. -/
theorem Lexeme.read_error (h : Lexeme.read offset c cs = .error e) : e.offset? = some offset ∧ e.Describes c cs := by
  have hchar : ConstraintError.Describes (.unexpectedChar c offset) c cs :=
    ⟨fun d hd => (Option.some.inj hd).symm, nofun⟩
  unfold Lexeme.read at h
  cases hl : Lexeme.ofChar? c with
  | some l =>
    rw [hl] at h
    cases h
  | none =>
    rw [hl] at h
    dsimp only at h
    split_ifs at h
    · cases h
      exact ⟨rfl, hchar⟩
    · split at h
      · cases h
      · cases h
        exact ⟨rfl, nofun, nofun⟩
    · cases h
      exact ⟨rfl, hchar⟩
    · cases h
      exact ⟨rfl, hchar⟩

theorem Lexeme.names_of_read {l : Lexeme} {n : Nat} (h : Lexeme.read offset c cs = .ok (l, n)) : l.Names c cs := by
  rintro name rfl
  obtain ⟨-, rfl⟩ := Lexeme.read_identifier h
  rw [String.toList_ofList, List.cons_prefix_cons]
  exact ⟨rfl, List.takeWhile_prefix _⟩

/-- **Every token stands where it says**, and a name is spelled there. -/
theorem Token.standsAt_of_scan {ts : List Token} (h : Token.scan start cs = .ok ts) :
    ∀ t ∈ ts, StandsAt cs start t.offset t.lexeme.Names := by
  induction start, cs using Token.scan.induct generalizing ts with
  | case1 start =>
    rw [Token.scan_nil] at h
    cases h
    exact fun t ht => nomatch ht
  | case2 start c cs hb ih =>
    rw [Token.scan_cons, if_pos hb] at h
    exact fun t ht => (ih h t ht).behind [c]
  | case3 start c cs hb ih =>
    rw [Token.scan_cons, if_neg hb] at h
    obtain ⟨⟨l, n⟩, hl, h⟩ := except_bind_eq_ok_iff.1 h
    obtain ⟨ts', hts', h⟩ := except_bind_eq_ok_iff.1 h
    cases h
    intro t ht
    rcases List.mem_cons.1 ht with rfl | ht
    · exact .here (Bool.eq_false_iff.2 hb) (Lexeme.names_of_read hl)
    · exact (ih n hts' t ht).behind_lexeme

/-- **A text that cannot be cut into lexemes is refused where the reading stops.** -/
theorem Token.standsAt_of_scan_error (h : Token.scan start cs = .error e) :
    ∃ offset, e.offset? = some offset ∧ StandsAt cs start offset e.Describes := by
  induction start, cs using Token.scan.induct with
  | case1 start =>
    rw [Token.scan_nil] at h
    cases h
  | case2 start c cs hb ih =>
    rw [Token.scan_cons, if_pos hb] at h
    obtain ⟨offset, ho, hs⟩ := ih h
    exact ⟨offset, ho, hs.behind [c]⟩
  | case3 start c cs hb ih =>
    rw [Token.scan_cons, if_neg hb] at h
    rcases except_bind_eq_error_iff.1 h with h | ⟨⟨l, n⟩, hl, h⟩
    · obtain ⟨ho, hd⟩ := Lexeme.read_error h
      exact ⟨start, ho, .here (Bool.eq_false_iff.2 hb) hd⟩
    rcases except_bind_eq_error_iff.1 h with h | ⟨ts', hts', h⟩
    · obtain ⟨offset, ho, hs⟩ := ih n h
      exact ⟨offset, ho, hs.behind_lexeme⟩
    · cases h

end Scanning

/-- **The error blames one of the tokens**: its offset, if it has one, is that of a token, and so is its name. -/
def ConstraintError.Blames (e : ConstraintError) (ts : List Token) : Prop :=
  ∀ offset, e.offset? = some offset → e.char? = none ∧
    ∃ t ∈ ts, t.offset = offset ∧ ∀ name, e.name? = some name → t.lexeme = .identifier name

namespace ConstraintError.Blames

variable {e : ConstraintError} {ts ts' : List Token}

theorem mono (h : e.Blames ts) (hsub : ts ⊆ ts') : e.Blames ts' := by
  intro offset ho
  obtain ⟨hc, t, ht, hn⟩ := h offset ho
  exact ⟨hc, t, hsub ht, hn⟩

/-- The error points at a token without a word about its text. -/
theorem of_mem {t : Token} (ht : t ∈ ts) (ho : e.offset? = some t.offset) (hc : e.char? = none) (hn : e.name? = none) :
    e.Blames ts := by
  intro offset ho'
  refine ⟨hc, t, ht, Option.some.inj (ho.symm.trans ho'), fun name h => ?_⟩
  rw [hn] at h
  cases h

theorem of_named (name : String) {i : Nat} (ht : ⟨.identifier name, i⟩ ∈ ts) (ho : e.offset? = some i)
    (hc : e.char? = none) (hn : e.name? = some name) : e.Blames ts := by
  intro offset ho'
  refine ⟨hc, _, ht, Option.some.inj (ho.symm.trans ho'), fun name' h => ?_⟩
  rw [Option.some.inj (hn.symm.trans h)]

theorem of_offset?_eq_none (ho : e.offset? = none) : e.Blames ts := by
  intro offset h
  rw [ho] at h
  cases h

end ConstraintError.Blames

namespace Constraint

variable {ts rest : List Token} {t : Token} {e : ConstraintError}

theorem blames_unexpected (ht : t ∈ ts) (expected : Expectation) : (t.unexpected expected).Blames ts := by
  refine .of_mem ht ?_ ?_ ?_ <;> (unfold Token.unexpected; split <;> rfl)

theorem blames_of_numericBound (h : numericBound ts = .error e) : e.Blames ts := by
  unfold numericBound at h
  split at h
  · cases h
    exact .of_offset?_eq_none rfl
  · cases h
  · cases h
    exact blames_unexpected List.mem_cons_self _

theorem blames_of_endOfRange (h : endOfRange ts = .error e) : e.Blames ts := by
  unfold endOfRange at h
  split at h
  · rename_i o i r hc
    cases h
    rw [comparator?_eq_some_iff.1 hc]
    exact .of_mem List.mem_cons_self rfl rfl rfl
  · cases h

/-- The bound after a comparator, with the end of the range after it. -/
theorem blames_of_numericBound_bind {β : Type} {f : Double × Fewer ts → Except ConstraintError β}
    (h : (numericBound ts >>= fun p => endOfRange p.2.1 >>= fun _ => f p) = .error e) :
    e.Blames ts ∨ ∃ p, f p = .error e := by
  rcases except_bind_eq_error_iff.1 h with h | ⟨⟨x, rest, hlt⟩, hx, h⟩
  · exact Or.inl (blames_of_numericBound h)
  rcases except_bind_eq_error_iff.1 h with h | ⟨_, _, h⟩
  · obtain ⟨i, rfl⟩ := reads_numericBound_iff.1 ⟨hlt, hx⟩
    exact Or.inl ((blames_of_endOfRange h).mono (List.subset_cons_self ..))
  · exact Or.inr ⟨_, h⟩

/-- What is left of some tokens is left of more than none, so the offset of the first is not made up. -/
theorem blames_of_boundableKind {c : Constraint} (hlt : rest.length < ts.length)
    (h : c.boundableKind (startOf ts) = .error e) : e.Blames ts := by
  obtain ⟨t, ts, rfl⟩ := List.exists_cons_of_length_pos (Nat.zero_lt_of_lt hlt)
  have he : e = .unboundable c t.offset := by
    unfold boundableKind at h
    split at h
    · split at h
      · cases h
      · cases h
        rfl
    · cases h
      rfl
  rw [he]
  exact .of_mem List.mem_cons_self rfl rfl rfl

theorem offset?_of_checkBound {k : Kind} {b : Bound} (h : b.check k = .error e) : e.offset? = none := by
  unfold Bound.check at h
  split at h
  · cases h
    rfl
  split at h
  · cases h
    rfl
  · cases h

/-- **The bounds of a kind that has any are refused without an offset.** -/
theorem offset?_of_checkRange {k : Kind} {min max : Option Bound} (hk : k.isBoundable = true)
    (h : checkRange k min max = .error e) : e.offset? = none := by
  unfold checkRange at h
  rw [hk] at h
  cases min with
  | none =>
    cases max with
    | none => cases h
    | some hi =>
      rcases except_bind_eq_error_iff.1 h with h | ⟨_, _, h⟩
      · exact offset?_of_checkBound h
      · cases h
  | some lo =>
    rcases except_bind_eq_error_iff.1 h with h | ⟨_, _, h⟩
    · exact offset?_of_checkBound h
    cases max with
    | none => cases h
    | some hi =>
      rcases except_bind_eq_error_iff.1 h with h | ⟨_, _, h⟩
      · exact offset?_of_checkBound h
      dsimp only at h
      split at h
      · cases h
        rfl
      · cases h

theorem blames_of_rangeOf {k : Kind} {bounds : Option Bound × Option Bound} (hk : k.isBoundable = true)
    (h : rangeOf k bounds = .error e) : e.Blames ts := by
  unfold rangeOf at h
  rcases except_bind_eq_error_iff.1 h with h | ⟨_, _, h⟩
  · exact .of_offset?_eq_none (offset?_of_checkRange hk h)
  · cases h

theorem blames_of_rangeBetween {k : Kind} {lo hi : Double} {o o' : Comparator} {i j : Nat}
    (hk : k.isBoundable = true) (ho : ⟨.comparator o, i⟩ ∈ ts) (ho' : ⟨.comparator o', j⟩ ∈ ts)
    (h : rangeBetween k lo o i o' j hi = .error e) : e.Blames ts := by
  unfold rangeBetween at h
  split at h
  · cases h
    exact .of_mem ho rfl rfl rfl
  · cases h
    exact .of_mem ho' rfl rfl rfl
  · exact blames_of_rangeOf hk h

theorem blames_of_closeParen (h : closeParen t.offset ts = .error e) : e.Blames (t :: ts) := by
  unfold closeParen at h
  split at h
  · cases h
    exact .of_mem List.mem_cons_self rfl rfl rfl
  split at h
  · cases h
  · cases h
    exact .of_mem List.mem_cons_self rfl rfl rfl
  · cases h
    exact blames_unexpected (by simp) _

theorem blames_of_separator (h : separator t.offset ts = .error e) : e.Blames (t :: ts) := by
  unfold separator at h
  split at h
  · cases h
    exact .of_mem List.mem_cons_self rfl rfl rfl
  rename_i t' ts'
  split at h
  · cases h
  · cases h
    exact .of_mem List.mem_cons_self rfl rfl rfl
  · split at h
    · cases h
      exact .of_mem (t := t') (by simp) rfl rfl rfl
    · rename_i next more
      split at h
      · cases h
        exact .of_mem (t := next) (by simp) rfl rfl rfl
      · cases h
  · cases h
    exact blames_unexpected (by simp) _

theorem blames_of_arrays {c : Constraint} (h : arrays c ts = .error e) : e.Blames ts := by
  induction c, ts using arrays.induct with
  | case1 c i j ts ih =>
    rw [arrays] at h
    rcases except_bind_eq_error_iff.1 h with h | ⟨_, _, h⟩
    · exact (ih h).mono (by simp)
    · cases h
  | case2 c i ts hne =>
    rw [arrays] at h
    · cases h
      exact .of_mem List.mem_cons_self rfl rfl rfl
    · exact hne
  | case3 c ts hne hne' =>
    rw [arrays] at h
    · cases h
    · exact hne
    · exact hne'

theorem blames_of_suffix (h : suffix ts = .error e) : e.Blames ts := by
  unfold suffix at h
  split at h
  · cases h
  · cases h
    exact blames_unexpected (by simp) _
  · cases h
    exact .of_offset?_eq_none rfl
  · cases h

section Readers

variable {isDefined : String → Bool}

theorem blames_of_ofName {name : String} {i : Nat} {s : Option String} (ht : ⟨.identifier name, i⟩ ∈ ts)
    (h : ofName isDefined name i s = .error e) : e.Blames ts := by
  refine .of_named name ht ?_ ?_ ?_ <;>
    (unfold ofName at h; (repeat' split at h) <;> cases h <;> rfl)

theorem blames_of_named {name : String} {i : Nat} (h : named isDefined name i ts = .error e) :
    e.Blames (⟨.identifier name, i⟩ :: ts) := by
  unfold named at h
  split at h
  · cases h
  rcases except_bind_eq_error_iff.1 h with h | ⟨⟨s, r⟩, _, h⟩
  · exact (blames_of_suffix h).mono (List.subset_cons_self ..)
  rcases except_bind_eq_error_iff.1 h with h | ⟨c, _, h⟩
  · exact blames_of_ofName List.mem_cons_self h
  · cases h

theorem subset_of_append {used : List Token} (h : ts = used ++ rest) : rest ⊆ ts := by
  rw [h]
  exact List.subset_append_right ..

mutual

/-- **A reader blames only tokens that it was given.** -/
theorem blames_of_readUnion {ts : List Token} (h : readUnion isDefined ts = .error e) : e.Blames ts := by
  rw [readUnion] at h
  cases hb : bar? ts with
  | some b =>
    obtain ⟨i, r⟩ := b
    rw [hb] at h
    cases h
    rw [bar?_eq_some_iff.1 hb]
    exact .of_mem List.mem_cons_self rfl rfl rfl
  | none =>
    rw [hb] at h
    rcases except_bind_eq_error_iff.1 h with h | ⟨⟨first, between, hlt⟩, hf, h⟩
    · exact blames_of_readTerm h
    rcases except_bind_eq_error_iff.1 h with h | ⟨⟨others, r⟩, ho, h⟩
    · obtain ⟨used, hts, -⟩ := term_of_reads ⟨hlt, hf⟩
      exact (blames_of_readBranches h).mono (subset_of_append hts)
    · cases h
termination_by 5 * ts.length + 3

theorem blames_of_readBranches {ts : List Token} (h : readBranches isDefined ts = .error e) : e.Blames ts := by
  rw [readBranches] at h
  cases hb : bar? ts with
  | none =>
    rw [hb] at h
    cases h
  | some b =>
    obtain ⟨i, rest, hlt⟩ := b
    have hts := bar?_eq_some_iff.1 hb
    rw [hb] at h
    dsimp only at h hts
    have hsub : rest ⊆ ts := by
      rw [hts]
      exact List.subset_cons_self ..
    split at h
    case isFalse =>
      cases h
      rw [hts]
      exact .of_mem List.mem_cons_self rfl rfl rfl
    rcases except_bind_eq_error_iff.1 h with h | ⟨⟨c, between, hlt'⟩, hc, h⟩
    · exact (blames_of_readTerm h).mono hsub
    rcases except_bind_eq_error_iff.1 h with h | ⟨⟨others, r⟩, ho, h⟩
    · obtain ⟨used, hu, -⟩ := term_of_reads ⟨hlt', hc⟩
      exact (blames_of_readBranches h).mono (List.Subset.trans (subset_of_append hu) hsub)
    · cases h
termination_by 5 * ts.length

theorem blames_of_readTerm {ts : List Token} (h : readTerm isDefined ts = .error e) : e.Blames ts := by
  rw [readTerm] at h
  cases hb : leftBound? ts with
  | some b =>
    obtain ⟨lo, o, i, rest, hlt⟩ := b
    obtain ⟨j, hts⟩ := leftBound?_eq_some_iff.1 hb
    rw [hb] at h
    dsimp only at h hts
    have hsub : rest ⊆ ts := by
      rw [hts]
      exact List.subset_append_right [_, _] rest
    rcases except_bind_eq_error_iff.1 h with h | ⟨⟨c, between, hlt'⟩, hc, h⟩
    · exact (blames_of_readOperand h).mono hsub
    obtain ⟨used, hu, -⟩ := operand_of_reads ⟨hlt', hc⟩
    have hbetween : between ⊆ ts := List.Subset.trans (subset_of_append hu) hsub
    rcases except_bind_eq_error_iff.1 h with h | ⟨k, hk, h⟩
    · exact (blames_of_boundableKind hlt' h).mono hsub
    have hk := (boundableKind_eq_ok_iff.1 hk).2
    dsimp only at h
    cases hr : comparator? between with
    | some b' =>
      obtain ⟨o', i', after⟩ := b'
      have hafter := comparator?_eq_some_iff.1 hr
      rw [hr] at h
      rcases blames_of_numericBound_bind h with h | ⟨p, h⟩
      · rw [hafter] at hbetween
        exact h.mono (List.Subset.trans (List.subset_cons_self ..) hbetween)
      rcases except_bind_eq_error_iff.1 h with h | ⟨_, _, h⟩
      · refine blames_of_rangeBetween hk (i := i) (j := i') ?_ ?_ h
        · rw [hts]
          simp
        · rw [hafter] at hbetween
          exact hbetween List.mem_cons_self
      · cases h
    | none =>
      rw [hr] at h
      rcases except_bind_eq_error_iff.1 h with h | ⟨_, _, h⟩
      · exact blames_of_rangeOf hk h
      · cases h
  | none =>
    rw [hb] at h
    rcases except_bind_eq_error_iff.1 h with h | ⟨⟨c, between, hlt⟩, hc, h⟩
    · exact blames_of_readOperand h
    obtain ⟨used, hu, -⟩ := operand_of_reads ⟨hlt, hc⟩
    have hbetween : between ⊆ ts := subset_of_append hu
    dsimp only at h
    cases hr : comparator? between with
    | some b' =>
      obtain ⟨o, i, after⟩ := b'
      rw [comparator?_eq_some_iff.1 hr] at hbetween
      rw [hr] at h
      rcases except_bind_eq_error_iff.1 h with h | ⟨k, hk, h⟩
      · exact blames_of_boundableKind hlt h
      have hk := (boundableKind_eq_ok_iff.1 hk).2
      rcases blames_of_numericBound_bind h with h | ⟨p, h⟩
      · exact h.mono (List.Subset.trans (List.subset_cons_self ..) hbetween)
      rcases except_bind_eq_error_iff.1 h with h | ⟨_, _, h⟩
      · exact blames_of_rangeOf hk h
      · cases h
    | none =>
      rw [hr] at h
      cases h
termination_by 5 * ts.length + 2

theorem blames_of_readOperand {ts : List Token} (h : readOperand isDefined ts = .error e) : e.Blames ts := by
  rw [readOperand] at h
  rcases except_bind_eq_error_iff.1 h with h | ⟨⟨c, between, hlt⟩, hc, h⟩
  · exact blames_of_readAtom h
  rcases except_bind_eq_error_iff.1 h with h | ⟨⟨d, r⟩, hd, h⟩
  · obtain ⟨used, hts, -⟩ := atom_of_reads ⟨hlt, hc⟩
    exact (blames_of_arrays h).mono (subset_of_append hts)
  · cases h
termination_by 5 * ts.length + 1

theorem blames_of_readAtom {ts : List Token} (h : readAtom isDefined ts = .error e) : e.Blames ts := by
  rw [readAtom.eq_def] at h
  split at h
  · cases h
    exact .of_offset?_eq_none rfl
  rename_i t rest
  obtain ⟨l, i⟩ := t
  dsimp only at h
  split at h
  · cases h
  · cases h
  · rcases except_bind_eq_error_iff.1 h with h | ⟨⟨c, r⟩, hc, h⟩
    · exact blames_of_named h
    · cases h
  · rcases except_bind_eq_error_iff.1 h with h | ⟨⟨c, between, hlt⟩, hc, h⟩
    · exact (blames_of_readUnion h).mono (List.subset_cons_self ..)
    rcases except_bind_eq_error_iff.1 h with h | ⟨r, hr, h⟩
    · obtain ⟨used, hu, -⟩ := union_of_reads ⟨hlt, hc⟩
      exact (blames_of_closeParen (t := ⟨.openParen, i⟩) h).mono (List.cons_subset_cons _ (subset_of_append hu))
    · cases h
  · split at h
    · cases h
    · rcases except_bind_eq_error_iff.1 h with h | ⟨⟨items, r⟩, hi, h⟩
      · exact blames_of_readItems (t := ⟨.openBracket, i⟩) h
      · cases h
  · cases h
    exact blames_unexpected List.mem_cons_self _
termination_by 5 * ts.length

/-- The items of a tuple, with the bracket `t` that opened it. -/
theorem blames_of_readItems {t : Token} {ts : List Token} (h : readItems isDefined t.offset ts = .error e) :
    e.Blames (t :: ts) := by
  rw [readItems] at h
  rcases except_bind_eq_error_iff.1 h with h | ⟨⟨c, between, hlt⟩, hc, h⟩
  · exact (blames_of_readUnion h).mono (List.subset_cons_self ..)
  obtain ⟨used, hu, -⟩ := union_of_reads ⟨hlt, hc⟩
  have hsub := List.cons_subset_cons t (subset_of_append hu)
  rcases except_bind_eq_error_iff.1 h with h | ⟨⟨more, after, hlt'⟩, hm, h⟩
  · exact (blames_of_separator h).mono hsub
  dsimp only at h
  split at h
  · rcases except_bind_eq_error_iff.1 h with h | ⟨⟨items, r⟩, hi, h⟩
    · rcases reads_separator_iff.1 ⟨hlt', hm⟩ with ⟨rfl, -⟩ | ⟨-, j, t', ts', hb, -, rfl⟩
      · contradiction
      · refine (blames_of_readItems h).mono (List.Subset.trans (List.cons_subset_cons t ?_) hsub)
        dsimp only at hb
        rw [hb]
        exact List.subset_cons_self ..
    · cases h
  · cases h
termination_by 5 * ts.length + 4

end

/-- **So does the reading of a whole expression.**  The check at its end, which knows no offsets, refuses nothing. -/
theorem blames_of_ofTokens (h : ofTokens isDefined ts = .error e) : e.Blames ts := by
  rw [ofTokens_eq_readTokens] at h
  unfold readTokens at h
  split at h
  · cases h
    exact .of_offset?_eq_none rfl
  rcases except_bind_eq_error_iff.1 h with h | ⟨⟨c, rest, hlt⟩, hc, h⟩
  · exact blames_of_readUnion h
  obtain ⟨used, hu, -⟩ := union_of_reads ⟨hlt, hc⟩
  refine ConstraintError.Blames.mono ?_ (subset_of_append hu)
  dsimp only at h
  split at h
  · cases h
  · cases h
  · cases h
    exact .of_mem (List.mem_cons_of_mem _ List.mem_cons_self) rfl rfl rfl
  · cases h
    exact .of_mem List.mem_cons_self rfl rfl rfl
  · cases h
    exact blames_unexpected List.mem_cons_self _

theorem standsAt_of_parse_error {text : String} {offset : Nat} (h : parse isDefined text = .error e)
    (ho : e.offset? = some offset) : StandsAt text.toList 0 offset e.Describes := by
  rcases except_bind_eq_error_iff.1 h with h | ⟨ts, hts, h⟩
  · obtain ⟨offset', ho', hs⟩ := Token.standsAt_of_scan_error h
    obtain rfl : offset = offset' := Option.some.inj (ho.symm.trans ho')
    exact hs
  · obtain ⟨hc, t, ht, rfl, hn⟩ := blames_of_ofTokens h offset ho
    refine (Token.standsAt_of_scan hts t ht).mono fun c after hnames => ⟨fun d hd => ?_, fun name hname => ?_⟩
    · rw [hc] at hd
      cases hd
    · exact hnames name (hn name hname)

/-- **Errors point into the expression.**  The offset that an error reports is less than the number of bytes of the
expression and on the boundary of a character, which is not blank.  An unexpected character is the one that stands
there, and an unknown name, or a name with an unknown format, is spelled from there on. -/
theorem parse_error_offset {text : String} {offset : Nat} (h : parse isDefined text = .error e)
    (ho : e.offset? = some offset) :
    offset < text.utf8ByteSize ∧ (String.Pos.Raw.mk offset).IsValid text ∧
      ∃ before c after, text = before ++ String.ofList (c :: after) ∧ before.utf8ByteSize = offset ∧
        Text.isBlank c = false ∧ (∀ d, e.char? = some d → d = c) ∧
          ∀ name, e.name? = some name → name.toList <+: c :: after := by
  obtain ⟨before, c, after, htext, hoffset, hb, hchar, hname⟩ := standsAt_of_parse_error h ho
  have htext : text = String.ofList before ++ String.ofList (c :: after) := by
    rw [← String.ofList_append, ← htext, String.ofList_toList]
  have hsize : (String.ofList before).utf8ByteSize = offset := by
    rw [utf8ByteSize_ofList, hoffset, Nat.zero_add]
  refine ⟨?_, ?_, _, c, after, htext, hsize, hb, hchar, hname⟩
  · have hpos := c.utf8Size_pos
    rw [htext, String.utf8ByteSize_append, hsize, utf8ByteSize_ofList, utf8Length]
    omega
  · exact String.Pos.Raw.isValid_iff_exists_append.2 ⟨_, _, htext, String.Pos.Raw.ext hsize.symm⟩

theorem parse_error_offset_foo :
    (String.Pos.Raw.mk 7).IsValid "'é' | foo" ∧ ∃ c after, "foo".toList <+: c :: after ∧
      ∃ before, "'é' | foo" = before ++ String.ofList (c :: after) ∧ before.utf8ByteSize = 7 := by
  have htokens : Token.ofString "'é' | foo" = .ok [⟨.quoted "é", 0⟩, ⟨.pipe, 5⟩, ⟨.identifier "foo", 7⟩] := by
    rw [Token.ofString, show "'é' | foo".toList = ['\'', 'é', '\'', ' ', '|', ' ', 'f', 'o', 'o'] from rfl]
    refine Token.scan_cons_lexeme (l := .quoted "é") (n := 2) rfl rfl (Token.scan_cons_blank rfl ?_)
    refine Token.scan_cons_lexeme (l := .pipe) (n := 0) rfl rfl (Token.scan_cons_blank rfl ?_)
    exact Token.scan_cons_lexeme (l := .identifier "foo") (n := 2) rfl rfl (Token.scan_nil _)
  have hquoted : readTerm (fun _ => false) [⟨.quoted "é", 0⟩, ⟨.pipe, 5⟩, ⟨.identifier "foo", 7⟩] =
      .ok (.literal (.string "é"), ⟨[⟨.pipe, 5⟩, ⟨.identifier "foo", 7⟩], by decide⟩) := by
    rw [readTerm, show leftBound? [⟨.quoted "é", 0⟩, ⟨.pipe, 5⟩, ⟨.identifier "foo", 7⟩] = none from rfl, readOperand,
      readAtom]
    rfl
  have hfoo : readTerm (fun _ => false) [⟨.identifier "foo", 7⟩] = .error (.unknownType "foo" 7) := by
    rw [readTerm, show leftBound? [⟨.identifier "foo", 7⟩] = none from rfl, readOperand, readAtom]
    rfl
  have he : parse (fun _ => false) "'é' | foo" = .error (.unknownType "foo" 7) := by
    rw [parse, htokens]
    simp only [bind, Except.bind, ofTokens, readUnion, bar?, hquoted, readBranches, startsBranch, hfoo,
      List.isEmpty_cons, if_true]
    rfl
  obtain ⟨-, hvalid, before, c, after, htext, hsize, -, -, hname⟩ := parse_error_offset he rfl
  exact ⟨hvalid, c, after, hname "foo" rfl, before, htext, hsize⟩

end Readers

end Constraint

end Assay
