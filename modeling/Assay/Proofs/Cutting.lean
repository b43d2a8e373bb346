import Assay.Proofs.ErrorOffsets
import Mathlib.Data.List.TakeWhile
/-!
# Texts as blanks and lexemes

What the text of each lexeme looks like is said without the scanner (`Lexeme.Spelling`), and one rule says where a text is
cut: after its blanks stands the lexeme with the longest spelling (`Token.Cuts`).  Scanning is this rule
(`Token.scan_eq_ok_iff_cuts`).  Whatever lexeme is spelled at the front of a text, the scanner reads one that is no
shorter, and this very lexeme if it is no longer (`Lexeme.Spelling.exists_read`).
-/
namespace Assay

/-- A numeral is a whole part with a minus before it and a fraction after it, or without.  Its double is the one nearest
to what its digits say. -/
inductive Numeral : List Char → Double → Prop
  | mk (negative : Bool) {whole fraction : List Char} (hw : whole ≠ [])
      (hd : ∀ c ∈ whole ++ fraction, c.isDigit = true) :
    Numeral ((if negative then ['-'] else []) ++ whole ++ fractionText fraction)
      (.ofDecimal negative (digitsValue (whole ++ fraction)) (-(fraction.length : Int)))

namespace Lexeme

/-- The lexemes that stand for nothing but themselves and do not compare. -/
def marks : List Lexeme := [pipe, dot, comma, openBracket, closeBracket, openParen, closeParen, question]

/-- The text may stand for the lexeme. -/
inductive Spelling : Lexeme → List Char → Prop
  | identifier {c : Char} {cs : List Char} (hc : isNameStart c = true) (hcs : ∀ d ∈ cs, isNameChar d = true) :
    Spelling (.identifier (String.ofList (c :: cs))) (c :: cs)
  | number {cs : List Char} {x : Double} (h : Numeral cs x) : Spelling (.number x) cs
  | quoted {quote : Char} {inner text : List Char} (hq : quote = '\'' ∨ quote = '"') (h : Escaped quote inner text) :
    Spelling (.quoted (String.ofList text)) (quote :: (inner ++ [quote]))
  | comparator (o : Comparator) : Spelling (.comparator o) o.symbol.toList
  | mark {l : Lexeme} (h : l ∈ marks) : Spelling l l.render.toList

/-- Before `rest`, the piece spells the lexeme, and no longer text at this place spells any. -/
structure Longest (l : Lexeme) (piece rest : List Char) : Prop where
  spelling : l.Spelling piece
  length_le : ∀ l' longer, Spelling l' longer → longer <+: piece ++ rest → longer.length ≤ piece.length

end Lexeme

/-- From the byte `start` on, the text is made of blanks and of the tokens, whose offsets are the bytes at which they
stand and each of which is as long as it can be. -/
inductive Token.Cuts : (start : Nat) → List Char → List Token → Prop
  | blanks {start : Nat} {cs : List Char} (hb : ∀ c ∈ cs, Text.isBlank c = true) : Cuts start cs []
  | lexeme {start : Nat} {blanks piece rest : List Char} {l : Lexeme} {ts : List Token}
      (hb : ∀ c ∈ blanks, Text.isBlank c = true) (hl : l.Longest piece rest)
      (h : Cuts (start + utf8Length (blanks ++ piece)) rest ts) :
    Cuts start (blanks ++ piece ++ rest) (⟨l, start + utf8Length blanks⟩ :: ts)

section Numbers

variable {negative : Bool} {whole fraction tail : List Char} {l : Lexeme} {n : Nat}

theorem fractionText_nil : fractionText [] = [] := rfl

theorem eq_nil_of_fractionText {fraction : List Char} (h : fractionText fraction = []) : fraction = [] := by
  cases fraction with
  | nil => rfl
  | cons d ds => cases h

theorem exists_of_fractionOf (cs : List Char) :
    ∃ rest, cs = fractionText (Lexeme.fractionOf cs) ++ rest ∧ ∀ c ∈ Lexeme.fractionOf cs, c.isDigit = true := by
  unfold Lexeme.fractionOf
  split
  · rename_i cs
    have hd : ∀ c ∈ cs.takeWhile Char.isDigit, c.isDigit = true := fun c hc => (List.mem_takeWhile_imp hc)
    cases ht : cs.takeWhile Char.isDigit with
    | nil => exact ⟨'.' :: cs, rfl, nofun⟩
    | cons d ds =>
      refine ⟨cs.dropWhile Char.isDigit, ?_, ht ▸ hd⟩
      show '.' :: cs = '.' :: (d :: ds ++ _)
      rw [← ht, List.takeWhile_append_dropWhile]
  · exact ⟨cs, rfl, nofun⟩

/-- **The digits at the front of a text are a numeral**, and so are those with a fraction after them. -/
theorem exists_of_readNumber {cs : List Char} (h : Lexeme.readNumber negative cs = (l, n)) :
    ∃ whole fraction rest, cs = whole ++ fractionText fraction ++ rest ∧ n = (whole ++ fractionText fraction).length ∧
      (∀ c ∈ whole ++ fraction, c.isDigit = true) ∧ (cs.head?.any Char.isDigit = true → whole ≠ []) ∧
      l = .number (.ofDecimal negative (digitsValue (whole ++ fraction)) (-(fraction.length : Int))) := by
  obtain ⟨rest, hrest, hf⟩ := exists_of_fractionOf (cs.dropWhile Char.isDigit)
  rw [readNumber_def] at h
  cases h
  refine ⟨_, _, rest, ?_, rfl, List.forall_mem_append.2 ⟨fun c hc => List.mem_takeWhile_imp hc, hf⟩, fun hh => ?_, rfl⟩
  · rw [List.append_assoc, ← hrest, List.takeWhile_append_dropWhile]
  · cases cs with
    | nil => cases hh
    | cons c cs =>
      rw [List.takeWhile_cons_of_pos (by simpa using hh)]
      exact List.cons_ne_nil _ _

/-- **A numeral is read to its end at least**, and as itself if it is read no further. -/
theorem readNumber_append (negative : Bool) (tail : List Char) (hd : ∀ c ∈ whole ++ fraction, c.isDigit = true)
    (h : Lexeme.readNumber negative (whole ++ fractionText fraction ++ tail) = (l, n)) :
    (whole ++ fractionText fraction).length ≤ n ∧ (n = (whole ++ fractionText fraction).length →
      l = .number (.ofDecimal negative (digitsValue (whole ++ fraction)) (-(fraction.length : Int)))) := by
  obtain ⟨hw, hf⟩ := List.forall_mem_append.1 hd
  rw [readNumber_def, List.append_assoc, List.takeWhile_append_of_pos hw, List.dropWhile_append_of_pos hw] at h
  cases fraction with
  | nil =>
    rw [fractionText_nil, List.nil_append] at h
    cases h
    simp only [fractionText_nil, List.length_append, List.append_nil]
    refine ⟨by omega, fun hn => ?_⟩
    have ht : tail.takeWhile Char.isDigit = [] := List.eq_nil_of_length_eq_zero (by omega)
    have hf : Lexeme.fractionOf (tail.dropWhile Char.isDigit) = [] :=
      eq_nil_of_fractionText (List.eq_nil_of_length_eq_zero (by omega))
    rw [ht, hf, List.append_nil, List.append_nil]
  | cons d ds =>
    have hnext : ∀ c ∈ (fractionText (d :: ds) ++ tail).head?, c.isDigit = false := fun c hc => by
      cases hc
      rfl
    have hfrac : Lexeme.fractionOf (fractionText (d :: ds) ++ tail) = d :: ds ++ tail.takeWhile Char.isDigit := by
      rw [← List.takeWhile_append_of_pos hf]
      rfl
    rw [takeWhile_of_head? hnext, dropWhile_of_head? hnext, hfrac, List.append_nil] at h
    cases h
    have ht : fractionText (d :: ds ++ tail.takeWhile Char.isDigit) =
      fractionText (d :: ds) ++ tail.takeWhile Char.isDigit := rfl
    simp only [ht, List.length_append]
    refine ⟨by omega, fun hn => ?_⟩
    have hnil : tail.takeWhile Char.isDigit = [] := List.eq_nil_of_length_eq_zero (by omega)
    rw [hnil, List.append_nil, List.length_nil, Nat.add_zero]

end Numbers

namespace Lexeme

variable {l : Lexeme} {offset n : Nat} {c : Char} {cs piece rest : List Char}

theorem spelling_of_ofChar? (h : ofChar? c = some l) : l.Spelling [c] := by
  unfold ofChar? at h
  split at h
  all_goals first | cases h; exact .mark (by decide) | cases h

theorem exists_ofChar?_of_mem_marks (h : l ∈ marks) : ∃ c, l.render.toList = [c] ∧ ofChar? c = some l := by
  simp only [marks, List.mem_cons, List.not_mem_nil, or_false] at h
  rcases h with rfl | rfl | rfl | rfl | rfl | rfl | rfl | rfl <;> exact ⟨_, rfl, rfl⟩

theorem exists_of_head? {d : Char} (h : (cs.head? == some d) = true) : ∃ rest, cs = [d] ++ rest := by
  cases cs with
  | nil => cases h
  | cons c cs => exact ⟨cs, by rw [Option.some.inj (beq_iff_eq.1 h)]; rfl⟩

/-- **What is read spells its lexeme.** -/
theorem spelling_of_read (h : read offset c cs = .ok (l, n)) :
    ∃ piece rest, cs = piece ++ rest ∧ n = piece.length ∧ l.Spelling (c :: piece) := by
  unfold read at h
  cases hm : ofChar? c with
  | some m =>
    rw [hm] at h
    cases h
    exact ⟨[], cs, rfl, rfl, spelling_of_ofChar? hm⟩
  | none =>
    rw [hm] at h
    dsimp only at h
    split_ifs at h with hlt hd hgt hd heq hd hq hdigit hminus hd hname
    · cases h
      obtain ⟨rest, rfl⟩ := exists_of_head? hd
      exact ⟨['='], rest, rfl, rfl, hlt ▸ .comparator .le⟩
    · cases h
      exact ⟨[], cs, rfl, rfl, hlt ▸ .comparator .lt⟩
    · cases h
      obtain ⟨rest, rfl⟩ := exists_of_head? hd
      exact ⟨['='], rest, rfl, rfl, hgt ▸ .comparator .ge⟩
    · cases h
      exact ⟨[], cs, rfl, rfl, hgt ▸ .comparator .gt⟩
    · cases h
      subst heq
      obtain ⟨rest, rfl⟩ := exists_of_head? hd
      exact ⟨['='], rest, rfl, rfl, .comparator .eq⟩
    · split at h
      · rename_i text m hr
        cases h
        obtain ⟨inner, rest, hi, rfl, rfl⟩ := escaped_of_readQuoted hr
        exact ⟨inner ++ [c], rest, (List.append_assoc inner [c] rest).symm, by simp, .quoted hq hi⟩
      · cases h
    · cases hr : readNumber false (c :: cs) with
      | mk l' m =>
        rw [hr] at h
        cases h
        obtain ⟨whole, fraction, rest, hcs, rfl, hdigits, hw, rfl⟩ := exists_of_readNumber hr
        obtain ⟨d, ds, rfl⟩ := List.exists_cons_of_ne_nil (hw hdigit)
        obtain ⟨rfl, rfl⟩ := List.cons.inj hcs
        exact ⟨ds ++ fractionText fraction, rest, rfl, rfl, .number (.mk false (List.cons_ne_nil _ _) hdigits)⟩
    · obtain ⟨whole, fraction, rest, rfl, rfl, hdigits, hw, rfl⟩ := exists_of_readNumber (Except.ok.inj h)
      exact ⟨_, rest, rfl, rfl, hminus ▸ .number (.mk true (hw hd) hdigits)⟩
    · cases h
      exact ⟨_, _, List.takeWhile_append_dropWhile.symm, rfl, .identifier hname fun d hd => List.mem_takeWhile_imp hd⟩

/-- **What spells a lexeme is read to its end at least**, and as this lexeme if it is read no further. -/
theorem Spelling.exists_read (h : l.Spelling piece) : ∃ c cs, piece = c :: cs ∧ Text.isBlank c = false ∧
    ∀ offset tail, ∃ l' n, read offset c (cs ++ tail) = .ok (l', n) ∧ cs.length ≤ n ∧ (n = cs.length → l' = l) := by
  cases h with
  | @identifier c cs hc hcs =>
    refine ⟨c, cs, rfl, not_isBlank_of_isNameStart hc, fun offset tail => ⟨_, _, read_of_isNameStart hc, ?_⟩⟩
    rw [List.takeWhile_append_of_pos hcs, List.length_append]
    refine ⟨Nat.le_add_right _ _, fun hn => ?_⟩
    rw [List.eq_nil_of_length_eq_zero (Nat.add_eq_left.1 hn), List.append_nil]
  | number h =>
    obtain ⟨negative, hw, hd⟩ := h
    rename_i whole fraction
    obtain ⟨c, cs, rfl⟩ := List.exists_cons_of_ne_nil hw
    have hc : c.isDigit = true := hd c List.mem_cons_self
    cases negative with
    | false =>
      refine ⟨c, cs ++ fractionText fraction, rfl, (classes_of_isDigit hc).2.2.1,
        fun offset tail => ⟨_, _, read_of_isDigit hc, ?_⟩⟩
      obtain ⟨hle, hl⟩ := readNumber_append false tail hd rfl
      rw [List.cons_append, List.length_cons] at hle hl
      exact ⟨Nat.le_pred_of_lt hle, fun hn => hl (Nat.eq_add_of_sub_eq (Nat.le_of_add_left_le hle) hn)⟩
    | true =>
      refine ⟨'-', c :: cs ++ fractionText fraction, rfl, by decide, fun offset tail => ?_⟩
      obtain ⟨hle, hl⟩ := readNumber_append true tail hd rfl
      exact ⟨_, _, read_minus.trans (if_pos hc), hle, hl⟩
  | @quoted quote inner text hq h =>
    have hb : quote ≠ '\\' ∧ Text.isBlank quote = false := by rcases hq with rfl | rfl <;> decide
    refine ⟨quote, inner ++ [quote], rfl, hb.2, fun offset tail => ⟨_, _, ?_, Nat.le_refl _, fun _ => rfl⟩⟩
    rw [read_quote hq, List.append_assoc, List.singleton_append, readQuoted_of_escaped hb.1 h, List.length_append]
    rfl
  | comparator o =>
    cases o with
    | lt =>
      refine ⟨'<', [], rfl, by decide, fun offset tail => ?_⟩
      rw [read_less]
      split
      · exact ⟨_, _, rfl, Nat.zero_le _, nofun⟩
      · exact ⟨_, _, rfl, Nat.le_refl _, fun _ => rfl⟩
    | gt =>
      refine ⟨'>', [], rfl, by decide, fun offset tail => ?_⟩
      rw [read_greater]
      split
      · exact ⟨_, _, rfl, Nat.zero_le _, nofun⟩
      · exact ⟨_, _, rfl, Nat.le_refl _, fun _ => rfl⟩
    | le => exact ⟨'<', ['='], rfl, by decide, fun _ _ => ⟨_, _, read_less, Nat.le_refl _, fun _ => rfl⟩⟩
    | ge => exact ⟨'>', ['='], rfl, by decide, fun _ _ => ⟨_, _, read_greater, Nat.le_refl _, fun _ => rfl⟩⟩
    | eq => exact ⟨'=', ['='], rfl, by decide, fun _ _ => ⟨_, _, rfl, Nat.le_refl _, fun _ => rfl⟩⟩
  | mark h =>
    obtain ⟨c, hc, hm⟩ := exists_ofChar?_of_mem_marks h
    exact ⟨c, [], hc, not_isBlank_of_ofChar? hm, fun _ _ => ⟨_, _, read_of_ofChar? hm, Nat.le_refl _, fun _ => rfl⟩⟩

/-- **Reading finds the longest spelling.** -/
theorem read_eq_ok_iff_longest :
    read offset c (piece ++ rest) = .ok (l, piece.length) ↔ l.Longest (c :: piece) rest := by
  constructor
  · intro h
    obtain ⟨piece', rest', heq, hlen, hs⟩ := spelling_of_read h
    obtain ⟨rfl, -⟩ := List.append_inj heq hlen
    refine ⟨hs, fun l' longer hl hprefix => ?_⟩
    obtain ⟨d, cs, rfl, -, hread⟩ := hl.exists_read
    rw [List.cons_append, List.cons_prefix_cons] at hprefix
    obtain ⟨rfl, tail, htail⟩ := hprefix
    obtain ⟨l'', n, hr, hle, -⟩ := hread offset tail
    rw [htail, h] at hr
    cases hr
    exact Nat.succ_le_succ hle
  · rintro ⟨hs, hlongest⟩
    obtain ⟨d, cs, heq, -, hread⟩ := hs.exists_read
    obtain ⟨rfl, rfl⟩ := List.cons.inj heq
    obtain ⟨l', n, hr, hle, hl⟩ := hread offset rest
    obtain ⟨piece', rest', hcut, rfl, hs'⟩ := spelling_of_read hr
    have hle' : (c :: piece').length ≤ (c :: piece).length :=
      hlongest l' _ hs' (List.cons_prefix_cons.2 ⟨rfl, rest', hcut.symm⟩)
    have hlen : piece'.length = piece.length := Nat.le_antisymm (Nat.le_of_succ_le_succ hle') hle
    rw [hr, hl hlen, hlen]

end Lexeme

namespace Token

variable {start : Nat} {cs blanks : List Char} {ts : List Token}

theorem scan_blanks_append (hb : ∀ c ∈ blanks, Text.isBlank c = true) (start : Nat) (cs : List Char) :
    scan start (blanks ++ cs) = scan (start + utf8Length blanks) cs := by
  induction blanks generalizing start with
  | nil => rfl
  | cons c blanks ih =>
    obtain ⟨hc, hb⟩ := List.forall_mem_cons.1 hb
    rw [List.cons_append, scan_cons, if_pos hc, ih hb, utf8Length, Nat.add_assoc]

/-- A blank more goes to the blanks in front. -/
theorem Cuts.cons {c : Char} (hc : Text.isBlank c = true) (h : Cuts (start + c.utf8Size) cs ts) :
    Cuts start (c :: cs) ts := by
  cases h with
  | blanks hb => exact .blanks (List.forall_mem_cons.2 ⟨hc, hb⟩)
  | @lexeme _ blanks piece rest l ts hb hl h =>
    have hs : ∀ ds, start + c.utf8Size + utf8Length ds = start + utf8Length (c :: ds) := fun ds => by
      rw [utf8Length, Nat.add_assoc]
    have hcb : ∀ d ∈ c :: blanks, Text.isBlank d = true := List.forall_mem_cons.2 ⟨hc, hb⟩
    rw [hs] at h ⊢
    exact .lexeme hcb hl h

/-- **Scanning cuts a text at its blanks and after the longest lexemes.** -/
theorem scan_eq_ok_iff_cuts : scan start cs = .ok ts ↔ Cuts start cs ts := by
  constructor
  · intro h
    have hnone : ∀ c ∈ ([] : List Char), Text.isBlank c = true := nofun
    induction start, cs using scan.induct generalizing ts with
    | case1 start =>
      rw [scan_nil] at h
      cases h
      exact .blanks hnone
    | case2 start c cs hb ih =>
      rw [scan_cons, if_pos hb] at h
      exact (ih h).cons hb
    | case3 start c cs hb ih =>
      rw [scan_cons, if_neg hb] at h
      obtain ⟨⟨l, n⟩, hl, h⟩ := Constraint.except_bind_eq_ok_iff.1 h
      obtain ⟨ts', hts', h⟩ := Constraint.except_bind_eq_ok_iff.1 h
      cases h
      obtain ⟨piece, rest, rfl, rfl, -⟩ := Lexeme.spelling_of_read hl
      have hcuts := ih _ hts'
      rw [List.take_left, List.drop_left] at hcuts
      exact .lexeme hnone (Lexeme.read_eq_ok_iff_longest.1 hl) hcuts
  · intro h
    induction h with
    | @blanks start cs hb =>
      have hs := scan_blanks_append hb start []
      rwa [List.append_nil, scan_nil] at hs
    | @lexeme start blanks piece rest l ts hb hl _ ih =>
      obtain ⟨c, cs, rfl, hc, -⟩ := hl.spelling.exists_read
      rw [utf8Length_append, ← Nat.add_assoc] at ih
      rw [List.append_assoc, scan_blanks_append hb, List.cons_append, scan_cons, if_neg (by rw [hc]; decide),
        Lexeme.read_eq_ok_iff_longest.2 hl]
      simp only [bind, Except.bind, List.take_left, List.drop_left, ih]
      rfl

end Token

end Assay
