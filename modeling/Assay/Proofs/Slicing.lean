import Assay.Proofs.Cutting
import Mathlib.Data.String.Basic
/-!
# Lexemes as slices of bytes

A text may also be read with a cursor that knows the byte at which each character starts.  Names and numbers are then
slices of the text from the byte where they begin to the byte where they end, and a point belongs to a number if the
slice behind it begins with a digit.  A slice that leaves the text or cuts a character does not exist (`slice?`), and a
reading that asks for one has no result.  No reading does (`Token.ofString_lossless`).
-/
namespace Assay

/-- The bytes of a text from `first` on and before `last`: there is such a slice only if both are in the text, in order
and on the boundaries of characters. -/
def slice? (s : String) (first last : Nat) : Option String :=
  if first ≤ last ∧ (String.Pos.Raw.mk first).IsValid s ∧ (String.Pos.Raw.mk last).IsValid s then
    some (String.Pos.Raw.extract s ⟨first⟩ ⟨last⟩)
  else none

/-- Characters with the bytes at which they start, of which `start` is the first. -/
def charIndices (start : Nat) : List Char → List (Nat × Char)
  | [] => []
  | c :: cs => (start, c) :: charIndices (start + c.utf8Size) cs

namespace Lexeme

/-- The end of the name that ends at `stop` if it does not go on. -/
def nameEnd (stop : Nat) : List (Nat × Char) → Nat
  | [] => stop
  | (i, c) :: rest => if isNameChar c then nameEnd (i + c.utf8Size) rest else stop

def digitAt? (s : String) (i : Nat) : Option Bool :=
  (slice? s i s.utf8ByteSize).map fun after => after.toList.head?.any Char.isDigit

/-- The end of the number that ends at `stop` if it does not go on.  At most one point belongs to it. -/
def numberEnd? (s : String) (hasPoint : Bool) (stop : Nat) : List (Nat × Char) → Option Nat
  | [] => some stop
  | (i, c) :: rest =>
    if c.isDigit then numberEnd? s hasPoint (i + 1) rest
    else if c = '.' ∧ hasPoint = false then do
      if ← digitAt? s (i + 1) then numberEnd? s true (i + 1) rest else some stop
    else some stop

def ofNumeral : List Char → Lexeme
  | '-' :: cs => (readNumber true cs).1
  | cs => (readNumber false cs).1

/-- The number from the byte `offset` on, of which the characters at the cursor are still to be read. -/
def sliceNumber? (s : String) (offset stop : Nat) (chars : List (Nat × Char)) : Option (Lexeme × Nat) := do
  let stop ← numberEnd? s false stop chars
  let text ← slice? s offset stop
  return (ofNumeral text.toList, stop)

def sliceName? (s : String) (offset : Nat) (chars : List (Nat × Char)) : Option (Lexeme × Nat) := do
  let stop := nameEnd offset chars
  let name ← slice? s offset stop
  return (identifier name, stop)

/-- The lexeme that starts with `c` at the byte `offset`, and the byte at which it ends. -/
def readSlices? (s : String) (offset : Nat) (c : Char) (rest : List (Nat × Char)) :
    Option (Except ConstraintError (Lexeme × Nat)) :=
  if c = '-' then
    if rest.head?.any (·.2.isDigit) then (sliceNumber? s offset (offset + 1) rest).map .ok
    else some (.error (.unexpectedChar c offset))
  else if c.isDigit then (sliceNumber? s offset offset ((offset, c) :: rest)).map .ok
  else if isNameStart c then (sliceName? s offset ((offset, c) :: rest)).map .ok
  else
    let cs := rest.map Prod.snd
    some ((read offset c cs).map fun (l, n) => (l, offset + utf8Length (c :: cs.take n)))

end Lexeme

namespace Token

/-- The tokens of a text from the cursor on. -/
def scanSlices? (s : String) : List (Nat × Char) → Option (Except ConstraintError (List Token))
  | [] => some (.ok [])
  | (offset, c) :: rest =>
    if Text.isBlank c then scanSlices? s rest
    else match Lexeme.readSlices? s offset c rest with
      | none => none
      | some (.error e) => some (.error e)
      | some (.ok (l, stop)) => (scanSlices? s (rest.dropWhile (·.1 < stop))).map (·.map (⟨l, offset⟩ :: ·))
termination_by chars => chars.length
decreasing_by
  · simp
  · exact Nat.lt_succ_of_le (List.dropWhile_suffix _).length_le

def ofSlices? (s : String) : Option (Except ConstraintError (List Token)) := scanSlices? s (charIndices 0 s.toList)

end Token

section Slices

variable {before piece after : List Char}

theorem utf8Length_eq_utf8Len (cs : List Char) : utf8Length cs = String.utf8Len cs := by
  induction cs with
  | nil => rfl
  | cons c cs ih => rw [utf8Length, ih, String.utf8Len_cons, Nat.add_comm]

theorem isValid_utf8Length (before after : List Char) :
    (String.Pos.Raw.mk (utf8Length before)).IsValid (String.ofList (before ++ after)) :=
  String.Pos.Raw.isValid_iff_exists_append.2
    ⟨_, _, String.ofList_append, String.Pos.Raw.ext (utf8ByteSize_ofList before).symm⟩

/-- **The bytes between two characters are a slice.** -/
theorem slice?_append (before piece after : List Char) :
    slice? (String.ofList (before ++ piece ++ after)) (utf8Length before) (utf8Length before + utf8Length piece) =
      some (String.ofList piece) := by
  have hfirst := isValid_utf8Length before (piece ++ after)
  have hlast := isValid_utf8Length (before ++ piece) after
  rw [← List.append_assoc] at hfirst
  rw [utf8Length_append] at hlast
  unfold slice?
  rw [if_pos ⟨Nat.le_add_right _ _, hfirst, hlast⟩, utf8Length_eq_utf8Len, utf8Length_eq_utf8Len,
    String.extract_of_valid]

theorem map_snd_charIndices (start : Nat) (cs : List Char) : (charIndices start cs).map Prod.snd = cs := by
  induction cs generalizing start with
  | nil => rfl
  | cons c cs ih => rw [charIndices, List.map_cons, ih]

theorem head?_charIndices_any (p : Char → Bool) (start : Nat) (cs : List Char) :
    (charIndices start cs).head?.any (fun e => p e.2) = cs.head?.any p := by
  cases cs <;> rfl

theorem dropWhile_charIndices (start : Nat) (piece rest : List Char) :
    (charIndices start (piece ++ rest)).dropWhile (·.1 < start + utf8Length piece) =
      charIndices (start + utf8Length piece) rest := by
  induction piece generalizing start with
  | nil =>
    rw [List.nil_append]
    cases rest with
    | nil => rfl
    | cons c cs => exact List.dropWhile_cons_of_neg (by simp [utf8Length])
  | cons c piece ih =>
    have hpos := c.utf8Size_pos
    rw [List.cons_append, charIndices, List.dropWhile_cons_of_pos, utf8Length, ← Nat.add_assoc, ih]
    rw [utf8Length, decide_eq_true_eq]
    omega

end Slices

theorem utf8Size_of_isDigit {c : Char} (h : c.isDigit = true) : c.utf8Size = 1 := by
  obtain ⟨-, hu⟩ := Char.isDigit_iff_toNat.1 h
  exact Char.utf8Size_eq_one_iff.2 (UInt32.le_iff_toNat_le.2 (Nat.le_trans hu (by decide)))

namespace Lexeme

variable {before cs : List Char} {c : Char}

theorem nameEnd_charIndices (start : Nat) (cs : List Char) :
    nameEnd start (charIndices start cs) = start + utf8Length (cs.takeWhile isNameChar) := by
  induction cs generalizing start with
  | nil => rfl
  | cons c cs ih =>
    rw [charIndices, nameEnd]
    split
    · rename_i h
      rw [ih, List.takeWhile_cons_of_pos h, utf8Length, Nat.add_assoc]
    · rename_i h
      rw [List.takeWhile_cons_of_neg h]
      rfl

/-- After the point, a number goes on as long as there are digits. -/
theorem numberEnd?_fraction (s : String) (start : Nat) (cs : List Char) :
    numberEnd? s true start (charIndices start cs) = some (start + utf8Length (cs.takeWhile Char.isDigit)) := by
  induction cs generalizing start with
  | nil => rfl
  | cons c cs ih =>
    rw [charIndices, numberEnd?]
    split
    · rename_i h
      rw [utf8Size_of_isDigit h, ih, List.takeWhile_cons_of_pos h, utf8Length, utf8Size_of_isDigit h, Nat.add_assoc]
    · rename_i h
      rw [if_neg (by simp), List.takeWhile_cons_of_neg h]
      rfl

theorem digitAt?_append (before cs : List Char) :
    digitAt? (String.ofList (before ++ cs)) (utf8Length before) = some (cs.head?.any Char.isDigit) := by
  have hs := slice?_append before cs []
  rw [List.append_nil] at hs
  rw [digitAt?, utf8ByteSize_ofList, utf8Length_append, hs, Option.map_some, String.toList_ofList]

theorem fractionText_takeWhile (h : cs.head?.any Char.isDigit = true) :
    fractionText (cs.takeWhile Char.isDigit) = '.' :: cs.takeWhile Char.isDigit := by
  cases cs with
  | nil => cases h
  | cons d ds =>
    have hd : d.isDigit = true := h
    rw [List.takeWhile_cons_of_pos hd]
    rfl

/-- A point belongs to a number together with the digits behind it. -/
theorem numberEnd?_point (before cs : List Char) :
    numberEnd? (String.ofList (before ++ '.' :: cs)) false (utf8Length before)
        (charIndices (utf8Length before) ('.' :: cs)) =
      some (utf8Length before + utf8Length (fractionText (cs.takeWhile Char.isDigit))) := by
  have hd := digitAt?_append (before ++ ['.']) cs
  have hlen : utf8Length (before ++ ['.']) = utf8Length before + 1 := utf8Length_append before ['.']
  rw [List.append_assoc, List.singleton_append, hlen] at hd
  rw [charIndices, numberEnd?, if_neg (by decide), if_pos ⟨rfl, rfl⟩, hd]
  cases h : cs.head?.any Char.isDigit with
  | true =>
    rw [fractionText_takeWhile h, utf8Length, ← Nat.add_assoc]
    exact numberEnd?_fraction _ _ cs
  | false =>
    rw [takeWhile_of_head? ((Option.any_eq_false _ _).1 h)]
    rfl

/-- The digits that a text begins with and the fraction after them. -/
def numeralOf (cs : List Char) : List Char :=
  cs.takeWhile Char.isDigit ++ fractionText (fractionOf (cs.dropWhile Char.isDigit))

theorem numberEnd?_charIndices (before cs : List Char) :
    numberEnd? (String.ofList (before ++ cs)) false (utf8Length before) (charIndices (utf8Length before) cs) =
      some (utf8Length before + utf8Length (numeralOf cs)) := by
  unfold numeralOf
  induction cs generalizing before with
  | nil => rfl
  | cons c cs ih =>
    by_cases h : c.isDigit = true
    · have hb := ih (before ++ [c])
      have hlen : utf8Length (before ++ [c]) = utf8Length before + 1 := by
        rw [utf8Length_append, utf8Length, utf8Length, utf8Size_of_isDigit h]
      rw [List.append_assoc, List.singleton_append, hlen] at hb
      rw [charIndices, numberEnd?, if_pos h, utf8Size_of_isDigit h, hb, List.takeWhile_cons_of_pos h,
        List.dropWhile_cons_of_pos h, List.cons_append, utf8Length, utf8Size_of_isDigit h, Nat.add_assoc]
    rw [List.takeWhile_cons_of_neg h, List.dropWhile_cons_of_neg h, List.nil_append]
    by_cases hp : c = '.'
    · subst hp
      exact numberEnd?_point before cs
    · have hf : fractionOf (c :: cs) = [] := fractionOf_eq_nil fun d hd => Option.some.inj hd ▸ hp
      rw [charIndices, numberEnd?, if_neg h, if_neg fun hc => hp hc.1, hf]
      rfl

/-- **A name is sliced out of the text.** -/
theorem sliceName?_append (before cs : List Char) :
    sliceName? (String.ofList (before ++ cs)) (utf8Length before) (charIndices (utf8Length before) cs) =
      some (.identifier (String.ofList (cs.takeWhile isNameChar)),
        utf8Length before + utf8Length (cs.takeWhile isNameChar)) := by
  have hs := slice?_append before (cs.takeWhile isNameChar) (cs.dropWhile isNameChar)
  rw [List.append_assoc, List.takeWhile_append_dropWhile] at hs
  rw [sliceName?, nameEnd_charIndices, hs]
  rfl

theorem exists_append_numeralOf (cs : List Char) : ∃ rest, cs = numeralOf cs ++ rest := by
  obtain ⟨rest, hrest, -⟩ := exists_of_fractionOf (cs.dropWhile Char.isDigit)
  exact ⟨rest, by rw [numeralOf, List.append_assoc, ← hrest, List.takeWhile_append_dropWhile]⟩

theorem readNumber_numeralOf (negative : Bool) (cs : List Char) :
    readNumber negative (numeralOf cs) = readNumber negative cs := by
  obtain ⟨-, -, hf⟩ := exists_of_fractionOf (cs.dropWhile Char.isDigit)
  have hw : ∀ c ∈ cs.takeWhile Char.isDigit, c.isDigit = true := fun c hc => List.mem_takeWhile_imp hc
  have hn := readNumber_eq negative (List.forall_mem_append.2 ⟨hw, hf⟩) delimits_nil
  rwa [List.append_nil, ← readNumber_def] at hn

theorem take_readNumber (negative : Bool) (cs : List Char) :
    cs.take (readNumber negative cs).2 = numeralOf cs := by
  obtain ⟨rest, hrest⟩ := exists_append_numeralOf cs
  rw [readNumber_def]
  show cs.take (numeralOf cs).length = numeralOf cs
  exact (List.prefix_iff_eq_take.1 ⟨rest, hrest.symm⟩).symm

theorem ofNumeral_minus (cs : List Char) : ofNumeral ('-' :: numeralOf cs) = (readNumber true cs).1 := by
  rw [← readNumber_numeralOf]
  rfl

theorem ofNumeral_of_isDigit (h : c.isDigit = true) :
    ofNumeral (numeralOf (c :: cs)) = (readNumber false (c :: cs)).1 := by
  rw [← readNumber_numeralOf, numeralOf, List.takeWhile_cons_of_pos h, List.cons_append]
  unfold ofNumeral
  split
  · rename_i heq
    rw [(List.cons.inj heq).1] at h
    cases h
  · rfl

/-- **A number is sliced out of the text**, with the sign that was read before its digits. -/
theorem sliceNumber?_append (before sign cs : List Char) :
    sliceNumber? (String.ofList (before ++ sign ++ cs)) (utf8Length before) (utf8Length (before ++ sign))
        (charIndices (utf8Length (before ++ sign)) cs) =
      some (ofNumeral (sign ++ numeralOf cs), utf8Length before + utf8Length (sign ++ numeralOf cs)) := by
  obtain ⟨rest, hrest⟩ := exists_append_numeralOf cs
  have hs := slice?_append before (sign ++ numeralOf cs) rest
  rw [← List.append_assoc, List.append_assoc (before ++ sign), ← hrest] at hs
  have he : utf8Length (before ++ sign) + utf8Length (numeralOf cs) =
      utf8Length before + utf8Length (sign ++ numeralOf cs) := by
    rw [utf8Length_append, utf8Length_append, Nat.add_assoc]
  rw [sliceNumber?, numberEnd?_charIndices, he]
  simp only [bind, Option.bind, hs, String.toList_ofList]
  rfl

theorem isNameChar_of_isNameStart (h : isNameStart c = true) : isNameChar c = true := by
  unfold isNameStart at h
  unfold isNameChar Text.isAlphanumeric
  rw [Bool.or_right_comm, h]
  rfl

/-- **Reading by slices is reading**, wherever in a text it starts. -/
theorem readSlices?_eq (before : List Char) (c : Char) (cs : List Char) :
    readSlices? (String.ofList (before ++ c :: cs)) (utf8Length before) c
        (charIndices (utf8Length before + c.utf8Size) cs) =
      some ((read (utf8Length before) c cs).map fun (l, n) => (l, utf8Length before + utf8Length (c :: cs.take n))) := by
  rw [readSlices?, head?_charIndices_any, map_snd_charIndices]
  by_cases hm : c = '-'
  · subst hm
    have hs := sliceNumber?_append before ['-'] cs
    rw [List.append_assoc, List.singleton_append, utf8Length_append] at hs
    rw [if_pos rfl, read_minus]
    split
    · refine (congrArg (Option.map Except.ok) hs).trans ?_
      show some (Except.ok (ofNumeral ('-' :: numeralOf cs), utf8Length before + utf8Length ('-' :: numeralOf cs))) = _
      rw [ofNumeral_minus, ← take_readNumber true]
      rfl
    · rfl
  by_cases hd : c.isDigit = true
  · have hs := sliceNumber?_append before [] (c :: cs)
    rw [List.append_nil] at hs
    rw [if_neg hm, if_pos hd, read_of_isDigit hd]
    refine (congrArg (Option.map Except.ok) hs).trans ?_
    have hpos : 0 < (readNumber false (c :: cs)).2 := by
      rw [readNumber_def, List.takeWhile_cons_of_pos hd]
      exact Nat.zero_lt_succ _
    have ht : c :: cs.take ((readNumber false (c :: cs)).2 - 1) = numeralOf (c :: cs) := by
      rw [← take_readNumber false, ← List.take_succ_cons, Nat.sub_add_cancel hpos]
    rw [List.nil_append, ofNumeral_of_isDigit hd, ← ht]
    rfl
  by_cases hn : isNameStart c = true
  · have hs := sliceName?_append before (c :: cs)
    have hc : isNameChar c = true := isNameChar_of_isNameStart hn
    rw [List.takeWhile_cons_of_pos hc] at hs
    rw [if_neg hm, if_neg hd, if_pos hn, read_of_isNameStart hn]
    refine (congrArg (Option.map Except.ok) hs).trans ?_
    have ht : cs.take (cs.takeWhile isNameChar).length = cs.takeWhile isNameChar :=
      (List.prefix_iff_eq_take.1 (List.takeWhile_prefix _)).symm
    simp only [Except.map, ht]
    rfl
  · rw [if_neg hm, if_neg hd, if_neg hn]

end Lexeme

namespace Token

/-- **Scanning by slices is scanning.** -/
theorem scanSlices?_eq (before cs : List Char) :
    scanSlices? (String.ofList (before ++ cs)) (charIndices (utf8Length before) cs) =
      some (scan (utf8Length before) cs) := by
  generalize hstart : utf8Length before = start
  induction start, cs using scan.induct generalizing before with
  | case1 start =>
    rw [charIndices, scanSlices?, scan_nil]
  | case2 start c cs hb ih =>
    have hs := ih (before ++ [c]) (by rw [utf8Length_append, hstart]; rfl)
    rw [List.append_assoc, List.singleton_append] at hs
    rw [charIndices, scanSlices?, if_pos hb, scan_cons, if_pos hb, hs]
  | case3 start c cs hb ih =>
    subst hstart
    rw [charIndices, scanSlices?, if_neg hb, Lexeme.readSlices?_eq, scan_cons, if_neg hb]
    cases hr : Lexeme.read (utf8Length before) c cs with
    | error e => rfl
    | ok p =>
      obtain ⟨l, n⟩ := p
      obtain ⟨piece, rest, rfl, rfl, -⟩ := Lexeme.spelling_of_read hr
      have hs := ih piece.length (before ++ c :: piece) (by rw [List.take_left, utf8Length_append])
      have hend : utf8Length before + utf8Length (c :: piece) =
          utf8Length before + c.utf8Size + utf8Length piece := by
        rw [utf8Length, Nat.add_assoc]
      rw [List.take_left, List.drop_left, List.append_assoc, List.cons_append] at hs
      simp only [Except.map, bind, Except.bind, List.take_left, List.drop_left]
      rw [hend] at hs ⊢
      rw [dropWhile_charIndices, hs]
      cases scan (utf8Length before + c.utf8Size + utf8Length piece) rest <;> rfl

/-- **Nothing of a text is lost.**  A text has certain tokens exactly when it is made of them and of blanks: each token
stands at its offset, and what stands there is the longest text that spells a lexeme.  Reading the text by slices of its
bytes never asks for one that is not there, and comes to the same tokens or the same error. -/
theorem ofString_lossless (s : String) :
    (∀ ts, ofString s = .ok ts ↔ Cuts 0 s.toList ts) ∧ ofSlices? s = some (ofString s) := by
  refine ⟨fun ts => scan_eq_ok_iff_cuts, ?_⟩
  have hs := scanSlices?_eq [] s.toList
  rwa [List.nil_append, String.ofList_toList] at hs

end Token

end Assay
