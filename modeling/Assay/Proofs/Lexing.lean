import Assay.Expression.Scan
import Assay.Proofs.Decimals
/-!
# Texts and their lexemes

`Scans cs ls tail` says that `cs` is cut into the lexemes `ls` when `tail` follows it.  Texts put one after the other
are cut into the lexemes of each (`Scans.append`), so that a text is followed through its parts: blanks, single
characters, names, numbers and quoted strings.  The next part must not go on with the lexeme before it (`Delimits`).
-/
namespace Assay

/-- Wherever it stands, the text is cut into the lexemes if `tail` comes after it. -/
def Scans (cs : List Char) (ls : List Lexeme) (tail : List Char) : Prop :=
  ∀ offset, ∃ ts next, ts.map Token.lexeme = ls ∧
    Token.scan offset (cs ++ tail) = (Token.scan next tail).map (ts ++ ·)

/-- What comes next does not belong to a name, a number or a comparator. -/
def Delimits (tail : List Char) : Prop := ∀ c ∈ tail.head?, isNameChar c = false ∧ c ≠ '.' ∧ c ≠ '='

theorem delimits_nil : Delimits [] := fun _ h => by cases h

theorem delimits_cons {c : Char} {cs : List Char} (h : c ∈ [' ', '[', ']', ')', ',', '?', '|']) : Delimits (c :: cs) := by
  intro d hc
  cases hc
  simp only [List.mem_cons, List.not_mem_nil, or_false] at h
  rcases h with rfl | rfl | rfl | rfl | rfl | rfl | rfl <;> decide

section Classes

variable {c d : Char}

theorem ne_of_isNameStart (hc : isNameStart c = true) (hd : isNameStart d = false) : c ≠ d := fun h => by
  rw [h, hd] at hc
  cases hc

theorem not_isNameStart_of_isBlank (h : Text.isBlank c = true) : isNameStart c = false := by
  have hascii : ∀ n ∈ [0x9, 0xa, 0xb, 0xc, 0xd, 0x20], isNameStart (Char.ofNat n) = false := by decide
  have hrest : ∀ n ∈ [0x85, 0xa0, 0x1680, 0x2000, 0x2001, 0x2002, 0x2003, 0x2004, 0x2005, 0x2006, 0x2007, 0x2008, 0x2009,
      0x200a, 0x2028, 0x2029, 0x202f, 0x205f, 0x3000], isNameStart (Char.ofNat n) = false := by decide +kernel
  by_cases hlt : c.toNat < 0x80
  · have hm := hascii c.toNat (by
      simp [Text.isBlank] at h
      simp
      omega)
    rwa [Char.ofNat_toNat] at hm
  · have hm := hrest c.toNat (by
      simp [Text.isBlank] at h
      simp
      omega)
    rwa [Char.ofNat_toNat] at hm

theorem not_isBlank_of_isNameStart (h : isNameStart c = true) : Text.isBlank c = false := by
  rw [← Bool.not_eq_true]
  intro hb
  rw [not_isNameStart_of_isBlank hb] at h
  cases h

/-- A digit starts no name and goes on with any, and is neither blank nor a lexeme. -/
theorem classes_of_isDigit (h : c.isDigit = true) :
    isNameStart c = false ∧ isNameChar c = true ∧ Text.isBlank c = false ∧ Lexeme.ofChar? c = none ∧
      c ∉ ['<', '>', '=', '\'', '"'] := by
  have hd : ∀ n < 58, 48 ≤ n → isNameStart (Char.ofNat n) = false ∧ isNameChar (Char.ofNat n) = true ∧
      Text.isBlank (Char.ofNat n) = false ∧ Lexeme.ofChar? (Char.ofNat n) = none ∧
        Char.ofNat n ∉ ['<', '>', '=', '\'', '"'] := by decide
  obtain ⟨hl, hu⟩ := Char.isDigit_iff_toNat.1 h
  have hm := hd c.toNat (Nat.lt_succ_of_le hu) hl
  rwa [Char.ofNat_toNat] at hm

theorem not_isBlank_of_ofChar? {l : Lexeme} (h : Lexeme.ofChar? c = some l) : Text.isBlank c = false := by
  unfold Lexeme.ofChar? at h
  split at h
  all_goals first | rfl | cases h

theorem ofChar?_of_isNameStart (h : isNameStart c = true) : Lexeme.ofChar? c = none := by
  unfold Lexeme.ofChar?
  split
  all_goals first | rfl | exact absurd h (by decide)

end Classes

theorem Token.scan_nil (offset : Nat) : Token.scan offset [] = .ok [] := by
  rw [Token.scan.eq_def]

theorem Token.scan_cons (offset : Nat) (c : Char) (cs : List Char) : Token.scan offset (c :: cs) =
    if Text.isBlank c then Token.scan (offset + c.utf8Size) cs
    else do
      let (lexeme, n) ← Lexeme.read offset c cs
      let tokens ← Token.scan (offset + utf8Length (c :: cs.take n)) (cs.drop n)
      return ⟨lexeme, offset⟩ :: tokens := by
  rw [Token.scan.eq_def]

section Read

variable {c : Char} {cs : List Char} {offset : Nat}

/-- A blank is passed over. -/
theorem Token.scan_cons_blank {ts : List Token} (hb : Text.isBlank c = true)
    (h : Token.scan (offset + c.utf8Size) cs = .ok ts) : Token.scan offset (c :: cs) = .ok ts := by
  rw [scan_cons, if_pos hb, h]

/-- A lexeme is cut off. -/
theorem Token.scan_cons_lexeme {l : Lexeme} {n : Nat} {ts : List Token} (hb : Text.isBlank c = false)
    (hr : Lexeme.read offset c cs = .ok (l, n))
    (h : Token.scan (offset + utf8Length (c :: cs.take n)) (cs.drop n) = .ok ts) :
      Token.scan offset (c :: cs) = .ok (⟨l, offset⟩ :: ts) := by
  rw [scan_cons, if_neg (Bool.eq_false_iff.1 hb), hr]
  simp only [bind, Except.bind, h]
  rfl

theorem read_of_ofChar? {l : Lexeme} (h : Lexeme.ofChar? c = some l) : Lexeme.read offset c cs = .ok (l, 0) := by
  unfold Lexeme.read
  rw [h]

theorem read_less : Lexeme.read offset '<' cs =
    .ok (if cs.head? == some '=' then (.comparator .le, 1) else (.comparator .lt, 0)) := rfl

theorem read_greater : Lexeme.read offset '>' cs =
    .ok (if cs.head? == some '=' then (.comparator .ge, 1) else (.comparator .gt, 0)) := rfl

theorem read_quote (h : c = '\'' ∨ c = '"') : Lexeme.read offset c cs =
    match Lexeme.readQuoted c cs with
    | some (text, n) => .ok (.quoted (String.ofList text), n)
    | none => .error (.unterminatedString offset) := by
  unfold Lexeme.read
  rcases h with rfl | rfl <;> rfl

theorem read_of_isDigit (h : c.isDigit = true) : Lexeme.read offset c cs =
    .ok ((Lexeme.readNumber false (c :: cs)).1, (Lexeme.readNumber false (c :: cs)).2 - 1) := by
  obtain ⟨-, -, -, ho, hne⟩ := classes_of_isDigit h
  simp only [List.mem_cons, List.not_mem_nil, or_false, not_or] at hne
  unfold Lexeme.read
  rw [ho]
  dsimp only
  rw [if_neg hne.1, if_neg hne.2.1, if_neg hne.2.2.1, if_neg (not_or.2 hne.2.2.2), if_pos h]

theorem read_minus : Lexeme.read offset '-' cs =
    if cs.head?.any Char.isDigit then .ok (Lexeme.readNumber true cs) else .error (.unexpectedChar '-' offset) := by
  unfold Lexeme.read
  rfl

theorem read_of_isNameStart (h : isNameStart c = true) : Lexeme.read offset c cs =
    .ok (.identifier (String.ofList (c :: cs.takeWhile isNameChar)), (cs.takeWhile isNameChar).length) := by
  have hd : c.isDigit = false := by
    rw [← Bool.not_eq_true]
    intro hd
    rw [(classes_of_isDigit hd).1] at h
    cases h
  unfold Lexeme.read
  rw [ofChar?_of_isNameStart h]
  dsimp only
  rw [if_neg (ne_of_isNameStart h (by decide)), if_neg (ne_of_isNameStart h (by decide)),
    if_neg (ne_of_isNameStart h (by decide)), if_neg, if_neg (by rw [hd]; decide),
    if_neg (ne_of_isNameStart h (by decide)), if_pos h]
  rintro (hq | hq)
  · exact ne_of_isNameStart h (by decide) hq
  · exact ne_of_isNameStart h (by decide) hq

end Read

namespace Scans

variable {cs cs' tail : List Char} {ls ls' : List Lexeme}

theorem nil : Scans [] [] tail := fun offset => ⟨[], offset, rfl, by
  cases h : Token.scan offset tail <;> simp [Except.map, h]⟩

theorem append (h : Scans cs ls (cs' ++ tail)) (h' : Scans cs' ls' tail) : Scans (cs ++ cs') (ls ++ ls') tail := by
  intro offset
  obtain ⟨ts, next, rfl, hs⟩ := h offset
  obtain ⟨ts', next', rfl, hs'⟩ := h' next
  refine ⟨ts ++ ts', next', List.map_append, ?_⟩
  rw [List.append_assoc, hs, hs']
  cases Token.scan next' tail <;> simp [Except.map]

theorem blank {c : Char} (h : Text.isBlank c = true) : Scans [c] [] tail := by
  intro offset
  refine ⟨[], offset + c.utf8Size, rfl, ?_⟩
  rw [List.singleton_append, Token.scan_cons, if_pos h]
  cases Token.scan (offset + c.utf8Size) tail <;> simp [Except.map]

/-- One lexeme is cut off. -/
theorem lexeme (c : Char) (cs : List Char) {l : Lexeme} (hb : Text.isBlank c = false)
    (h : ∀ offset, Lexeme.read offset c (cs ++ tail) = .ok (l, cs.length)) : Scans (c :: cs) [l] tail := by
  intro offset
  refine ⟨[⟨l, offset⟩], offset + utf8Length (c :: cs), rfl, ?_⟩
  rw [List.cons_append, Token.scan_cons, if_neg (by rw [hb]; decide), h]
  simp only [List.take_left, List.drop_left, bind, Except.bind]
  cases Token.scan (offset + utf8Length (c :: cs)) tail <;> simp [Except.map, pure, Except.pure]

theorem char {c : Char} {l : Lexeme} (h : Lexeme.ofChar? c = some l) : Scans [c] [l] tail :=
  lexeme c [] (not_isBlank_of_ofChar? h) fun _ => read_of_ofChar? h

theorem chars {cs : List Char} {ls : List Lexeme} (h : cs.map Lexeme.ofChar? = ls.map some) : Scans cs ls tail := by
  induction cs generalizing ls with
  | nil =>
    rw [List.map_eq_nil_iff.1 h.symm]
    exact nil
  | cons c cs ih =>
    obtain ⟨l, ls', rfl, hl, hls⟩ := List.map_eq_cons_iff.1 h.symm
    exact (char hl.symm).append (ih hls.symm)

/-- A text that is cut into lexemes has them as its tokens. -/
theorem ofString {s : String} (h : Scans s.toList ls []) :
    ∃ ts, Token.ofString s = .ok ts ∧ ts.map Token.lexeme = ls := by
  obtain ⟨ts, next, hls, hs⟩ := h 0
  rw [List.append_nil] at hs
  refine ⟨ts, ?_, hls⟩
  rw [Token.ofString, hs, Token.scan_nil]
  simp [Except.map]

end Scans

theorem takeWhile_of_head? {p : Char → Bool} {cs : List Char} (h : ∀ c ∈ cs.head?, p c = false) :
    cs.takeWhile p = [] := by
  cases cs with
  | nil => rfl
  | cons c cs => exact List.takeWhile_cons_of_neg (by rw [h c rfl]; decide)

theorem dropWhile_of_head? {p : Char → Bool} {cs : List Char} (h : ∀ c ∈ cs.head?, p c = false) :
    cs.dropWhile p = cs := by
  cases cs with
  | nil => rfl
  | cons c cs => exact List.dropWhile_cons_of_neg (by rw [h c rfl]; decide)

/-- **A name is one lexeme**, up to a character that does not go on with it. -/
theorem Scans.name {c : Char} {cs tail : List Char} (hc : isNameStart c = true) (hcs : ∀ d ∈ cs, isNameChar d = true)
    (ht : Delimits tail ∨ ∃ ds, tail = '.' :: ds) : Scans (c :: cs) [.identifier (String.ofList (c :: cs))] tail := by
  have htail : ∀ d ∈ tail.head?, isNameChar d = false := by
    rcases ht with ht | ⟨ds, rfl⟩
    · exact fun d hm => (ht d hm).1
    · intro d hm
      cases hm
      decide
  refine Scans.lexeme c cs (not_isBlank_of_isNameStart hc) fun offset => ?_
  rw [read_of_isNameStart hc, List.takeWhile_append_of_pos hcs, takeWhile_of_head? htail, List.append_nil]

theorem Scans.comparator {tail : List Char} (o : Comparator) (ht : Delimits tail) :
    Scans o.symbol.toList [.comparator o] tail := by
  have hne : (tail.head? == some '=') = false := by
    cases tail with
    | nil => rfl
    | cons c cs => simpa using (ht c rfl).2.2
  cases o with
  | lt =>
    refine Scans.lexeme '<' [] (by decide) fun offset => ?_
    rw [List.nil_append, Lexeme.read, hne]
    rfl
  | le => exact Scans.lexeme '<' ['='] (by decide) fun _ => rfl
  | gt =>
    refine Scans.lexeme '>' [] (by decide) fun offset => ?_
    rw [List.nil_append, Lexeme.read, hne]
    rfl
  | ge => exact Scans.lexeme '>' ['='] (by decide) fun _ => rfl
  | eq => exact Scans.lexeme '=' ['='] (by decide) fun _ => rfl

section Numbers

variable {negative : Bool} {whole fraction tail : List Char}

theorem Delimits.not_isDigit (ht : Delimits tail) : ∀ c ∈ tail.head?, c.isDigit = false := fun c hc => by
  rw [← Bool.not_eq_true]
  intro h
  have hn := (ht c hc).1
  rw [(classes_of_isDigit h).2.1] at hn
  cases hn

theorem fractionOf_eq_nil {cs : List Char} (h : ∀ c ∈ cs.head?, c ≠ '.') : Lexeme.fractionOf cs = [] := by
  unfold Lexeme.fractionOf
  split
  · exact absurd rfl (h '.' rfl)
  · rfl

theorem length_fractionText (fraction : List Char) :
    (fractionText fraction).length = if fraction.isEmpty then 0 else fraction.length + 1 := by
  cases fraction <;> rfl

theorem readNumber_def (negative : Bool) (cs : List Char) : Lexeme.readNumber negative cs =
    (.number (.ofDecimal negative
        (digitsValue (cs.takeWhile Char.isDigit ++ Lexeme.fractionOf (cs.dropWhile Char.isDigit)))
        (-((Lexeme.fractionOf (cs.dropWhile Char.isDigit)).length : Int))),
      (cs.takeWhile Char.isDigit ++ fractionText (Lexeme.fractionOf (cs.dropWhile Char.isDigit))).length) := by
  unfold Lexeme.readNumber
  rw [List.length_append, length_fractionText]

theorem readNumber_eq (negative : Bool) (hd : ∀ c ∈ whole ++ fraction, c.isDigit = true) (ht : Delimits tail) :
    Lexeme.readNumber negative (whole ++ fractionText fraction ++ tail) =
      (.number (.ofDecimal negative (digitsValue (whole ++ fraction)) (-(fraction.length : Int))),
        (whole ++ fractionText fraction).length) := by
  obtain ⟨hw, hf⟩ := List.forall_mem_append.1 hd
  have hnext : ∀ c ∈ (fractionText fraction ++ tail).head?, c.isDigit = false := by
    cases fraction with
    | nil => exact ht.not_isDigit
    | cons d ds =>
      intro c hc
      cases hc
      decide
  have hfrac : Lexeme.fractionOf (fractionText fraction ++ tail) = fraction := by
    cases fraction with
    | nil => exact fractionOf_eq_nil fun c hc => (ht c hc).2.1
    | cons d ds =>
      show ((d :: ds) ++ tail).takeWhile Char.isDigit = d :: ds
      rw [List.takeWhile_append_of_pos hf, takeWhile_of_head? ht.not_isDigit, List.append_nil]
  rw [readNumber_def, List.append_assoc, List.takeWhile_append_of_pos hw, takeWhile_of_head? hnext, List.append_nil,
    List.dropWhile_append_of_pos hw, dropWhile_of_head? hnext, hfrac]

/-- **A run of digits, and a fraction if there is one, are one number.** -/
theorem Scans.number (hw : whole ≠ []) (hd : ∀ c ∈ whole ++ fraction, c.isDigit = true) (ht : Delimits tail) :
    Scans ((if negative then ['-'] else []) ++ whole ++ fractionText fraction)
      [.number (.ofDecimal negative (digitsValue (whole ++ fraction)) (-(fraction.length : Int)))] tail := by
  obtain ⟨c, cs, rfl⟩ := List.exists_cons_of_ne_nil hw
  have hc : c.isDigit = true := hd c List.mem_cons_self
  cases negative with
  | false =>
    refine Scans.lexeme c (cs ++ fractionText fraction) (classes_of_isDigit hc).2.2.1 fun offset => ?_
    have hr := readNumber_eq false hd ht
    rw [read_of_isDigit hc, ← List.cons_append, ← List.cons_append, hr]
    rfl
  | true =>
    refine Scans.lexeme '-' (c :: cs ++ fractionText fraction) (by decide) fun offset => ?_
    have hr := readNumber_eq true hd ht
    rw [read_minus, hr]
    exact if_pos hc

end Numbers

/-- Between two such quotes stands `inner` for `text`: a backslash and the character after it stand for that character,
and every other character for itself. -/
inductive Escaped (quote : Char) : (inner text : List Char) → Prop
  | nil : Escaped quote [] []
  | plain {c : Char} {inner text : List Char} (hb : c ≠ '\\') (hq : c ≠ quote) (h : Escaped quote inner text) :
    Escaped quote (c :: inner) (c :: text)
  | pair {c : Char} {inner text : List Char} (h : Escaped quote inner text) :
    Escaped quote ('\\' :: c :: inner) (c :: text)

section Quotes

variable {quote c : Char} {cs inner text : List Char}

theorem readQuoted_pair : Lexeme.readQuoted quote ('\\' :: c :: cs) =
    (Lexeme.readQuoted quote cs).map fun (text, n) => (c :: text, n + 2) := by
  rw [Lexeme.readQuoted.eq_def]
  exact if_pos rfl

theorem readQuoted_close (hq : quote ≠ '\\') : Lexeme.readQuoted quote (quote :: cs) = some ([], 1) := by
  rw [Lexeme.readQuoted.eq_def]
  dsimp only
  rw [if_neg hq, if_pos rfl]

theorem readQuoted_plain (hb : c ≠ '\\') (hq : c ≠ quote) : Lexeme.readQuoted quote (c :: cs) =
    (Lexeme.readQuoted quote cs).map fun (text, n) => (c :: text, n + 1) := by
  rw [Lexeme.readQuoted.eq_def]
  dsimp only
  rw [if_neg hb, if_neg hq]

/-- **An escaped text is read up to the quote that closes it.** -/
theorem readQuoted_of_escaped (hq : quote ≠ '\\') (h : Escaped quote inner text) (tail : List Char) :
    Lexeme.readQuoted quote (inner ++ quote :: tail) = some (text, inner.length + 1) := by
  induction h with
  | nil => exact readQuoted_close hq
  | plain hb hne _ ih =>
    rw [List.cons_append, readQuoted_plain hb hne, ih]
    rfl
  | pair _ ih =>
    rw [List.cons_append, List.cons_append, readQuoted_pair, ih]
    rfl

theorem escaped_of_readQuoted {n : Nat} (h : Lexeme.readQuoted quote cs = some (text, n)) :
    ∃ inner rest, Escaped quote inner text ∧ cs = inner ++ quote :: rest ∧ n = inner.length + 1 := by
  induction cs using Lexeme.readQuoted.induct quote generalizing text n with
  | case1 => cases h
  | case2 => cases h
  | case3 c cs ih =>
    rw [readQuoted_pair] at h
    obtain ⟨⟨text, n⟩, hr, heq⟩ := Option.map_eq_some_iff.1 h
    cases heq
    obtain ⟨inner, rest, hi, rfl, rfl⟩ := ih hr
    exact ⟨'\\' :: c :: inner, rest, hi.pair, rfl, rfl⟩
  | case4 cs hb =>
    rw [readQuoted_close hb] at h
    cases h
    exact ⟨[], cs, .nil, rfl, rfl⟩
  | case5 c cs hb hq ih =>
    rw [readQuoted_plain hb hq] at h
    obtain ⟨⟨text, n⟩, hr, heq⟩ := Option.map_eq_some_iff.1 h
    cases heq
    obtain ⟨inner, rest, hi, rfl, rfl⟩ := ih hr
    exact ⟨c :: inner, rest, hi.plain hb hq, rfl, rfl⟩

end Quotes

/-- What the printer puts between quotes stands for the text that it was given. -/
theorem escaped_flatMap_escape : ∀ cs : List Char, Escaped '\'' (cs.flatMap Literal.escape) cs
  | [] => .nil
  | c :: cs => by
    have ih := escaped_flatMap_escape cs
    rw [List.flatMap_cons, Literal.escape]
    split
    · exact ih.pair
    · rename_i h
      obtain ⟨hq, hb⟩ := not_or.1 h
      exact ih.plain hb hq

/-- A quoted string is read whole, whatever its text. -/
theorem exists_toList_quote (s : String) : ∃ piece, (Literal.quote s).toList = '\'' :: piece ∧
    ∀ offset tail, Lexeme.read offset '\'' (piece ++ tail) = .ok (.quoted s, piece.length) := by
  refine ⟨s.toList.flatMap Literal.escape ++ ['\''], ?_, fun offset tail => ?_⟩
  · unfold Literal.quote
    simp
  · rw [read_quote (Or.inl rfl), List.append_assoc, List.singleton_append,
      readQuoted_of_escaped (by decide) (escaped_flatMap_escape s.toList) tail]
    simp

/-- **A quoted string is one lexeme**, whatever its text. -/
theorem Scans.quoted (s : String) (tail : List Char) : Scans (Literal.quote s).toList [.quoted s] tail := by
  obtain ⟨piece, hq, hr⟩ := exists_toList_quote s
  rw [hq]
  exact Scans.lexeme '\'' piece (by decide) fun offset => hr offset tail

end Assay
