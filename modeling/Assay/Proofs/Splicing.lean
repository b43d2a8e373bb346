import Assay.Proofs.Cutting
/-!
# Strings spliced into expressions

A text between quotes is one token, whatever it holds and whatever comes after it (`Token.scan_quote_append`); what comes
after it is cut as if it stood alone, some bytes further on (`Token.scan_shift`).  Nor does it change what comes before
it, as a quote goes on with no lexeme (`Token.scan_append`).  What is read of an expression has a string literal for each
quoted token and no other (`Grammar.Expression.string_mem_literals_iff`), so that a string that is put into an expression
with its quotes and escapes adds itself and nothing else (`Token.ofString_splice`).
-/
namespace Assay

/-- The token as it stands in a text behind `n` bytes more. -/
def Token.shift (n : Nat) (t : Token) : Token := { t with offset := n + t.offset }

theorem Token.map_lexeme_shift (n : Nat) (ts : List Token) : (ts.map (shift n)).map lexeme = ts.map lexeme :=
  List.map_map

/-- The error as it is reported of a text behind `n` bytes more. -/
def ConstraintError.shift (n : Nat) : ConstraintError → ConstraintError
  | unexpectedChar c offset => unexpectedChar c (n + offset)
  | unterminatedString offset => unterminatedString (n + offset)
  | unexpectedToken expected found offset => unexpectedToken expected found (n + offset)
  | unknownType name offset => unknownType name (n + offset)
  | unknownFormat base format offset => unknownFormat base format (n + offset)
  | emptyBranch offset => emptyBranch (n + offset)
  | unbalancedRange fault offset => unbalancedRange fault (n + offset)
  | unboundable target offset => unboundable target (n + offset)
  | unbalancedBrackets offset => unbalancedBrackets (n + offset)
  | misplacedOptional offset => misplacedOptional (n + offset)
  | e => e

/-- The tokens of a text that begins with `ts` and goes on, behind `n` bytes, with a text that has certain tokens, or the
error of that text. -/
def Token.follow (ts : List Token) (n : Nat) : Except ConstraintError (List Token) → Except ConstraintError (List Token)
  | .ok ts' => .ok (ts ++ ts'.map (shift n))
  | .error e => .error (e.shift n)

section Delimited

variable {p : Char → Bool} {cs tail : List Char} {c : Char} {l : Lexeme} {offset n : Nat}

theorem takeWhile_append_of_head? (h : ∀ c ∈ tail.head?, p c = false) : (cs ++ tail).takeWhile p = cs.takeWhile p := by
  induction cs with
  | nil => exact takeWhile_of_head? h
  | cons c cs ih => rw [List.cons_append, List.takeWhile_cons, List.takeWhile_cons, ih]

theorem dropWhile_append_of_head? (h : ∀ c ∈ tail.head?, p c = false) :
    (cs ++ tail).dropWhile p = cs.dropWhile p ++ tail := by
  induction cs with
  | nil => exact dropWhile_of_head? h
  | cons c cs ih =>
    rw [List.cons_append, List.dropWhile_cons, List.dropWhile_cons, ih]
    split <;> rfl

theorem fractionOf_append (ht : Delimits tail) (cs : List Char) :
    Lexeme.fractionOf (cs ++ tail) = Lexeme.fractionOf cs := by
  cases cs with
  | nil => exact fractionOf_eq_nil fun c hc => (ht c hc).2.1
  | cons c cs =>
    by_cases hc : c = '.'
    · subst hc
      exact takeWhile_append_of_head? ht.not_isDigit
    · have hne : ∀ ds : List Char, ∀ d ∈ (c :: ds).head?, d ≠ '.' := fun ds d hd => Option.some.inj hd ▸ hc
      rw [fractionOf_eq_nil (hne cs)]
      exact fractionOf_eq_nil (hne (cs ++ tail))

/-- **A number ends at a delimiter.** -/
theorem readNumber_append_of_delimits (ht : Delimits tail) (negative : Bool) (cs : List Char) :
    Lexeme.readNumber negative (cs ++ tail) = Lexeme.readNumber negative cs := by
  rw [readNumber_def, readNumber_def, takeWhile_append_of_head? ht.not_isDigit,
    dropWhile_append_of_head? ht.not_isDigit, fractionOf_append ht]

/-- **A lexeme ends at a delimiter.** -/
theorem read_append (ht : Delimits tail) (h : Lexeme.read offset c cs = .ok (l, n)) :
    Lexeme.read offset c (cs ++ tail) = .ok (l, n) := by
  by_cases hq : c = '\'' ∨ c = '"'
  · rw [read_quote hq] at h ⊢
    split at h
    · rename_i text m hr
      obtain ⟨inner, rest, hi, rfl, rfl⟩ := escaped_of_readQuoted hr
      have hb : c ≠ '\\' := by rcases hq with rfl | rfl <;> decide
      rw [List.append_assoc, List.cons_append, readQuoted_of_escaped hb hi]
      exact h
    · cases h
  · have hhead : ((cs ++ tail).head? == some '=') = (cs.head? == some '=') := by
      cases cs with
      | nil =>
        cases tail with
        | nil => rfl
        | cons d ds => exact beq_false_of_ne fun hd => (ht d rfl).2.2 (Option.some.inj hd)
      | cons d ds => rfl
    have hdigit : (cs ++ tail).head?.any Char.isDigit = cs.head?.any Char.isDigit := by
      cases cs with
      | nil =>
        cases tail with
        | nil => rfl
        | cons d ds => exact ht.not_isDigit d rfl
      | cons d ds => rfl
    rw [← h]
    unfold Lexeme.read
    rw [hhead, hdigit, if_neg hq, if_neg hq, ← List.cons_append, readNumber_append_of_delimits ht,
      readNumber_append_of_delimits ht, takeWhile_append_of_head? fun d hd => (ht d hd).1]

end Delimited

/-- **What stands further on is read in the same way**, and refused in the same way. -/
theorem Lexeme.read_shift (n offset : Nat) (c : Char) (cs : List Char) :
    read (n + offset) c cs = (read offset c cs).mapError (.shift n) := by
  unfold read
  cases ofChar? c with
  | some l => rfl
  | none =>
    dsimp only
    split_ifs <;> first | rfl | (cases readQuoted c cs <;> rfl)

namespace Token

variable {cs front tail : List Char} {start : Nat} {ts : List Token}

/-- **What comes before a delimiter is cut as if it stood alone.** -/
theorem scan_append (ht : Delimits tail) (h : scan start front = .ok ts) :
    scan start (front ++ tail) = (scan (start + utf8Length front) tail).map (ts ++ ·) := by
  induction start, front using scan.induct generalizing ts with
  | case1 start =>
    rw [scan_nil] at h
    cases h
    rw [List.nil_append, utf8Length, Nat.add_zero]
    cases scan start tail <;> rfl
  | case2 start c cs hb ih =>
    rw [scan_cons, if_pos hb] at h
    rw [List.cons_append, scan_cons, if_pos hb, ih h, utf8Length, Nat.add_assoc]
  | case3 start c cs hb ih =>
    rw [scan_cons, if_neg hb] at h
    obtain ⟨⟨l, n⟩, hl, h⟩ := Constraint.except_bind_eq_ok_iff.1 h
    obtain ⟨ts', hts', h⟩ := Constraint.except_bind_eq_ok_iff.1 h
    cases h
    have hs := ih n hts'
    obtain ⟨piece, rest, rfl, rfl, -⟩ := Lexeme.spelling_of_read hl
    rw [List.take_left, List.drop_left] at hs
    rw [List.cons_append, scan_cons, if_neg hb, read_append ht hl]
    simp only [bind, Except.bind, List.append_assoc, List.take_left, List.drop_left, hs]
    rw [Nat.add_assoc, ← utf8Length_append, List.cons_append]
    cases scan (start + utf8Length (c :: (piece ++ rest))) tail <;> rfl

/-- **What stands further on is cut in the same way.** -/
theorem scan_shift (n start : Nat) (cs : List Char) : scan (n + start) cs = follow [] n (scan start cs) := by
  induction start, cs using scan.induct with
  | case1 start => rw [scan_nil, scan_nil]; rfl
  | case2 start c cs hb ih => rw [scan_cons, if_pos hb, scan_cons, if_pos hb, Nat.add_assoc, ih]
  | case3 start c cs hb ih =>
    rw [scan_cons, if_neg hb, scan_cons, if_neg hb, Lexeme.read_shift]
    cases Lexeme.read start c cs with
    | error e => rfl
    | ok p =>
      simp only [Except.mapError, bind, Except.bind]
      rw [Nat.add_assoc, ih]
      cases scan (start + utf8Length (c :: cs.take p.2)) (cs.drop p.2) <;> rfl

/-- **A quoted string is one token**, whatever its text and whatever comes after it. -/
theorem scan_quote_append (s : String) (start : Nat) (tail : List Char) :
    scan start ((Literal.quote s).toList ++ tail) =
      (scan (start + (Literal.quote s).utf8ByteSize) tail).map ([⟨.quoted s, start⟩] ++ ·) := by
  obtain ⟨piece, hq, hr⟩ := exists_toList_quote s
  rw [← utf8Length_toList, hq, List.cons_append, scan_cons, if_neg (by decide), hr]
  simp only [bind, Except.bind, List.take_left, List.drop_left]
  cases scan (start + utf8Length ('\'' :: piece)) tail <;> rfl

end Token

namespace Constraint

variable {cs : List Constraint} {t : String}

theorem literalsAll_append (cs cs' : List Constraint) : literalsAll (cs ++ cs') = literalsAll cs ++ literalsAll cs' := by
  induction cs with
  | nil => rfl
  | cons c cs ih => rw [List.cons_append, literalsAll, literalsAll, ih, List.append_assoc]

theorem literalsAll_branches (c : Constraint) : literalsAll c.branches = c.literals := by
  cases c with
  | union cs => rfl
  | _ => exact List.append_nil _

theorem literalsAll_flatMap_branches (cs : List Constraint) : literalsAll (cs.flatMap branches) = literalsAll cs := by
  induction cs with
  | nil => rfl
  | cons c cs ih => rw [List.flatMap_cons, literalsAll_append, literalsAll_branches, ih, literalsAll]

theorem literals_oneOf (cs : List Constraint) : (oneOf cs).literals = literalsAll (cs.flatMap branches).eraseDups := by
  rcases oneOf_cases cs with ⟨d, he, ho⟩ | ⟨-, ho⟩
  · rw [ho, he]
    exact (List.append_nil _).symm
  · rw [ho]
    rfl

/-- Only what has the same strings is left out. -/
theorem string_mem_literalsAll_eraseDups : .string t ∈ literalsAll cs.eraseDups ↔ .string t ∈ literalsAll cs := by
  rw [mem_literalsAll_iff, mem_literalsAll_iff]
  constructor
  · rintro ⟨c, hc, h⟩
    exact ⟨c, mem_of_mem_eraseDups hc, h⟩
  · rintro ⟨c, hc, h⟩
    obtain ⟨d, hd, rfl | he⟩ := exists_mem_eraseDups hc
    · exact ⟨c, hd, h⟩
    · obtain ⟨l, hl, hlt⟩ := exists_literal_of_beq (beq_symm he) _ h
      rcases Literal.beq_iff.1 hlt with ⟨rfl, -⟩ | ⟨_, _, -, ht, -⟩
      · exact ⟨d, hd, hl⟩
      · cases ht

theorem string_mem_literals_oneOf : .string t ∈ (oneOf cs).literals ↔ .string t ∈ literalsAll cs := by
  rw [literals_oneOf, string_mem_literalsAll_eraseDups, literalsAll_flatMap_branches]

end Constraint

namespace Grammar

open Constraint

variable {isDefined : String → Bool}

mutual

theorem Atom.strings : ∀ {ls : List Lexeme} {c : Constraint}, Atom isDefined ls c →
    ∀ t, .string t ∈ c.literals ↔ .quoted t ∈ ls
  | _, _, .quoted _ => fun t => by simp [literals]
  | _, _, .number _ => fun t => by simp [literals]
  | _, _, .yes => fun t => by simp [literals]
  | _, _, .no => fun t => by simp [literals]
  | _, _, .null => fun t => by simp [literals]
  | _, _, .group h => fun t => by simp [h.strings t]
  | _, _, .unit => fun t => by simp [literals, literalsAll]
  | _, _, .tuple h => fun t => by simp [literals, h.strings t]
  | _, _, .anyString => fun t => by simp [literals]
  | _, _, .format _ => fun t => by simp [literals]
  | _, _, .anyNumber => fun t => by simp [literals]
  | _, _, .integer => fun t => by simp [literals]
  | _, _, .boolean => fun t => by simp [literals]
  | _, _, .reference _ _ _ => fun t => by simp [literals]

theorem Operand.strings : ∀ {ls : List Lexeme} {c : Constraint}, Operand isDefined ls c →
    ∀ t, .string t ∈ c.literals ↔ .quoted t ∈ ls
  | _, _, .atom h => h.strings
  | _, _, .array h => fun t => by simp [literals, h.strings t]

theorem Term.strings : ∀ {ls : List Lexeme} {c : Constraint}, Term isDefined ls c →
    ∀ t, .string t ∈ c.literals ↔ .quoted t ∈ ls
  | _, _, .operand h => h.strings
  | _, _, .after _ _ h _ => fun t => by simp [literals, ← h.strings t]
  | _, _, .before _ _ h _ => fun t => by simp [literals, ← h.strings t]
  | _, _, .between _ _ _ _ _ _ h _ => fun t => by simp [literals, ← h.strings t]

theorem Terms.strings : ∀ {ls : List Lexeme} {cs : List Constraint}, Terms isDefined ls cs →
    ∀ t, .string t ∈ literalsAll cs ↔ .quoted t ∈ ls
  | _, _, .one h => fun t => by simp [literalsAll, h.strings t]
  | _, _, .more h hs => fun t => by simp [literalsAll, h.strings t, hs.strings t]

theorem Union.strings : ∀ {ls : List Lexeme} {c : Constraint}, Union isDefined ls c →
    ∀ t, .string t ∈ c.literals ↔ .quoted t ∈ ls
  | _, _, .terms h => fun t => string_mem_literals_oneOf.trans (h.strings t)

theorem Items.strings : ∀ {ls : List Lexeme} {cs : List Constraint}, Items isDefined ls cs →
    ∀ t, .string t ∈ literalsAll cs ↔ .quoted t ∈ ls
  | _, _, .one h => fun t => by simp [literalsAll, h.strings t]
  | _, _, .more h hs => fun t => by simp [literalsAll, h.strings t, hs.strings t]

end

/-- **The strings of what is read are the quoted lexemes.** -/
theorem Expression.string_mem_literals_iff {ls : List Lexeme} {c : Constraint} {t : String} :
    Expression isDefined ls c → (.string t ∈ c.literals ↔ .quoted t ∈ ls)
  | .required h => h.strings t
  | .optional h => by simp [literals, h.strings t]

end Grammar

namespace Token

theorem map_follow (ts ts' : List Token) (n : Nat) (r : Except ConstraintError (List Token)) :
    (follow ts' n r).map (ts ++ ·) = follow (ts ++ ts') n r := by
  cases r with
  | ok ts'' => exact congrArg Except.ok (List.append_assoc ..).symm
  | error e => rfl

theorem ofString_quote {front : String} {ts : List Token} (s rest : String) (h : ofString front = .ok ts) :
    ofString (front ++ Literal.quote s ++ rest) =
      follow (ts ++ [⟨.quoted s, front.utf8ByteSize⟩]) (front ++ Literal.quote s).utf8ByteSize (ofString rest) := by
  obtain ⟨piece, hq, -⟩ := exists_toList_quote s
  have hd : Delimits ((Literal.quote s).toList ++ rest.toList) := fun c hc => by
    rw [hq] at hc
    cases hc
    decide
  unfold ofString at h ⊢
  calc
    scan 0 (front ++ Literal.quote s ++ rest).toList
      = (scan front.utf8ByteSize ((Literal.quote s).toList ++ rest.toList)).map (ts ++ ·) := by
        rw [String.toList_append, String.toList_append, List.append_assoc, scan_append hd h, Nat.zero_add,
          utf8Length_toList]
    _ = ((scan (front ++ Literal.quote s).utf8ByteSize rest.toList).map
          ([⟨.quoted s, front.utf8ByteSize⟩] ++ ·)).map (ts ++ ·) := by
        rw [scan_quote_append, String.utf8ByteSize_append]
    _ = follow (ts ++ [⟨.quoted s, front.utf8ByteSize⟩]) (front ++ Literal.quote s).utf8ByteSize
          (scan 0 rest.toList) := by
        have hs := scan_shift (front ++ Literal.quote s).utf8ByteSize 0 rest.toList
        rw [Nat.add_zero] at hs
        rw [hs, map_follow, map_follow, List.append_nil]

/-- **A string literal that is put into an expression stays within its quotes.**  Before any text it is one token, after
which the text is cut as if it stood alone, or refused.  After a text that can be cut nothing changes in that one either,
and what is read of the whole has as its strings this one and those that are quoted on either side. -/
theorem ofString_splice (s rest : String) :
    ofString ((Literal.string s).render ++ rest) =
        follow [⟨.quoted s, 0⟩] (Literal.string s).render.utf8ByteSize (ofString rest) ∧
      ∀ front ts, ofString front = .ok ts →
        ofString (front ++ (Literal.string s).render ++ rest) =
            follow (ts ++ [⟨.quoted s, front.utf8ByteSize⟩]) (front ++ (Literal.string s).render).utf8ByteSize
              (ofString rest) ∧
          ∀ isDefined c, Constraint.parse isDefined (front ++ (Literal.string s).render ++ rest) = .ok c →
            ∃ ts', ofString rest = .ok ts' ∧
              ∀ t, .string t ∈ c.literals ↔ t = s ∨ .quoted t ∈ (ts ++ ts').map lexeme := by
  refine ⟨?_, fun front ts h => ⟨ofString_quote s rest h, fun isDefined c hc => ?_⟩⟩
  · have hnil : ofString "" = .ok [] := scan_nil 0
    have h := ofString_quote s rest hnil
    rwa [String.empty_append] at h
  · obtain ⟨tokens, htokens, he⟩ := Constraint.exists_tokens_of_parse hc
    rw [show (Literal.string s).render = Literal.quote s from rfl, ofString_quote s rest h] at htokens
    cases hr : ofString rest with
    | error e =>
      rw [hr] at htokens
      cases htokens
    | ok ts' =>
      rw [hr] at htokens
      cases htokens
      refine ⟨ts', rfl, fun t => he.string_mem_literals_iff.trans ?_⟩
      simp only [List.map_append, map_lexeme_shift, List.mem_append, List.map_singleton, List.mem_singleton,
        Lexeme.quoted.injEq]
      rw [or_assoc, or_left_comm]

theorem ofString_splice_apostrophe :
    ofString "'é' | " = .ok [⟨.quoted "é", 0⟩, ⟨.pipe, 5⟩] ∧
      ofString ("'é' | " ++ (Literal.string "it's").render ++ " | null") =
          .ok [⟨.quoted "é", 0⟩, ⟨.pipe, 5⟩, ⟨.quoted "it's", 7⟩, ⟨.pipe, 15⟩, ⟨.identifier "null", 17⟩] ∧
        ∃ c, Constraint.parse (fun _ => false) ("'é' | " ++ (Literal.string "it's").render ++ " | null") = .ok c ∧
          .string "it's" ∈ c.literals := by
  have hfront : ofString "'é' | " = .ok [⟨.quoted "é", 0⟩, ⟨.pipe, 5⟩] := by
    rw [ofString, show "'é' | ".toList = ['\'', 'é', '\'', ' ', '|', ' '] from rfl]
    refine scan_cons_lexeme (l := .quoted "é") (n := 2) rfl rfl (scan_cons_blank rfl ?_)
    exact scan_cons_lexeme (l := .pipe) (n := 0) rfl rfl (scan_cons_blank rfl (scan_nil _))
  have hrest : ofString " | null" = .ok [⟨.pipe, 1⟩, ⟨.identifier "null", 3⟩] := by
    rw [ofString, show " | null".toList = [' ', '|', ' ', 'n', 'u', 'l', 'l'] from rfl]
    refine scan_cons_blank rfl (scan_cons_lexeme (l := .pipe) (n := 0) rfl rfl (scan_cons_blank rfl ?_))
    exact scan_cons_lexeme (l := .identifier "null") (n := 3) rfl rfl (scan_nil _)
  have hparse : Constraint.parse (fun _ => false) ("'é' | " ++ (Literal.string "it's").render ++ " | null") =
      .ok (.union [.literal (.string "é"), .literal (.string "it's"), .literal .null]) := by
    have hs := ((Spells.quoted "é").bar (Spells.quoted "it's")).bar (Spells.name (n := "null") (by decide))
    have hterms : Grammar.Terms (fun _ => false) [.quoted "é", .pipe, .quoted "it's", .pipe, .identifier "null"]
        [.literal (.string "é"), .literal (.string "it's"), .literal .null] :=
      .more (.operand (.atom (.quoted "é"))) (.more (.operand (.atom (.quoted "it's"))) (.one (.operand (.atom .null))))
    exact Constraint.parse_of_spells hs (.required (.terms hterms))
  obtain ⟨ht, hc⟩ := (ofString_splice "it's" " | null").2 _ _ hfront
  obtain ⟨ts', -, hs⟩ := hc _ _ hparse
  exact ⟨hfront, ht.trans (by rw [hrest]; rfl), _, hparse, (hs "it's").2 (Or.inl rfl)⟩

end Token

end Assay
