import Assay.Format.Basic
import Assay.Proofs.Decimals
import Assay.Proofs.Patterns
/-!
# The languages of the structured formats

What an email address, a URL, a UUID and a date are, said by how their text is put together, and that the formats admit
these texts and no others (`Format.structured_languages`).  An email address is cut at its at sign.  The others have
patterns: those of UUIDs and dates are groups with hyphens between them (`Pattern.accepts_groups_iff`), and that of URLs
ends in two classes one of which is larger (`Pattern.accepts_adjacent_iff`), so that it can be met in many ways.
-/
namespace Assay

namespace Calendar

/-- Every fourth year is a leap year, but of the full centuries only every fourth. -/
def IsLeap (year : Nat) : Prop := 4 ∣ year ∧ (100 ∣ year → 400 ∣ year)

/-- **A day of the proleptic Gregorian calendar**, by the numbers of its year, month and day. -/
structure IsDay (y m d : Nat) : Prop where
  month : 1 ≤ m ∧ m ≤ 12
  day : 1 ≤ d ∧ d ≤ 31
  short : m ∈ [4, 6, 9, 11] → d ≤ 30
  february : m = 2 → d ≤ 28 ∨ d = 29 ∧ IsLeap y

variable {y m d : Nat}

theorem isLeapYear_iff : isLeapYear y = true ↔ IsLeap y := by
  simp only [isLeapYear, IsLeap, Bool.and_eq_true, Bool.or_eq_true, beq_iff_eq, bne_iff_ne]
  omega

theorem hasDay_iff : hasDay y m d = true ↔ IsDay y m d := by
  have hleap := isLeapYear_iff (y := y)
  simp only [hasDay, Bool.and_eq_true, decide_eq_true_eq]
  unfold daysInMonth
  constructor
  · rintro ⟨hpos, hle⟩
    split at hle
    · rename_i hm
      split at hle
      · rename_i hl
        refine ⟨by omega, by omega, ?_, fun _ => ?_⟩
        · simp [hm]
        · have hday : d ≤ 28 ∨ d = 29 := by omega
          exact hday.imp id fun hd => ⟨hd, hleap.1 hl⟩
      · refine ⟨by omega, by omega, ?_, fun _ => Or.inl hle⟩
        simp [hm]
    split at hle
    · exact ⟨by omega, by omega, fun _ => hle, fun hm => by omega⟩
    split at hle
    · rename_i hlong _
      refine ⟨by omega, by omega, fun hm => ?_, fun hm => by omega⟩
      simp only [List.mem_cons, List.not_mem_nil, or_false] at hm
      exact absurd hm hlong
    · omega
  · rintro ⟨hmonth, hday, hshort, hfebruary⟩
    refine ⟨hday.1, ?_⟩
    split
    · rename_i hm
      rcases hfebruary hm with hd | ⟨hd, hl⟩
      · split <;> omega
      · rw [if_pos (hleap.2 hl)]
        exact Nat.le_of_eq hd
    split
    · rename_i hm
      exact hshort (by simpa using hm)
    · exact hday.2

/-- **A field is a run of as many digits as it is wide**, and stands for the number they spell. -/
theorem field?_eq_some_iff {width n : Nat} {cs rest : List Char} : field? width cs = some (n, rest) ↔
    ∃ ds, cs = ds ++ rest ∧ ds.length = width ∧ (∀ c ∈ ds, c.isDigit = true) ∧ n = Nat.ofDigitChars 10 ds 0 := by
  unfold field?
  simp only [Option.ite_none_right_eq_some, List.all_eq_true, Option.some.injEq, Prod.mk.injEq,
    digitsValue_eq_ofDigitChars]
  constructor
  · rintro ⟨⟨hlen, hdigits⟩, rfl, rfl⟩
    exact ⟨cs.take width, (List.take_append_drop width cs).symm, hlen, hdigits, rfl⟩
  · rintro ⟨ds, rfl, rfl, hdigits, rfl⟩
    rw [List.take_left, List.drop_left]
    exact ⟨⟨rfl, hdigits⟩, rfl, rfl⟩

theorem mark?_eq_some_iff {c : Char} {cs rest : List Char} : mark? (· == c) cs = some rest ↔ cs = c :: rest := by
  cases cs with
  | nil => simp [mark?]
  | cons d cs => simp [mark?]

/-- A year, a month and a day of four, two and two digits, joined by hyphens, that are a day of the calendar. -/
def Date (cs : List Char) : Prop := ∃ y m d : List Char, cs = y ++ '-' :: m ++ '-' :: d ∧
  y.length = 4 ∧ m.length = 2 ∧ d.length = 2 ∧ (∀ c ∈ y ++ m ++ d, c.isDigit = true) ∧
    IsDay (Nat.ofDigitChars 10 y 0) (Nat.ofDigitChars 10 m 0) (Nat.ofDigitChars 10 d 0)

theorem isDate_iff {cs : List Char} : isDate cs = true ↔ Date cs := by
  unfold isDate afterDate?
  simp only [beq_iff_eq, bind, Option.bind_eq_some_iff, Prod.exists, field?_eq_some_iff, mark?_eq_some_iff,
    Option.ite_none_right_eq_some, Option.some.injEq, hasDay_iff]
  constructor
  · rintro ⟨_, _, ⟨y, rfl, hy, hyd, rfl⟩, _, rfl, _, _, ⟨m, rfl, hm, hmd, rfl⟩, _, rfl, _, _, ⟨d, rfl, hd, hdd, rfl⟩,
      hday, rfl⟩
    refine ⟨y, m, d, by simp, hy, hm, hd, ?_, hday⟩
    simp only [List.forall_mem_append]
    exact ⟨⟨hyd, hmd⟩, hdd⟩
  · rintro ⟨y, m, d, rfl, hy, hm, hd, hdigits, hday⟩
    simp only [List.forall_mem_append] at hdigits
    obtain ⟨⟨hyd, hmd⟩, hdd⟩ := hdigits
    exact ⟨_, _, ⟨y, List.append_assoc .., hy, hyd, rfl⟩, _, rfl, _, _, ⟨m, rfl, hm, hmd, rfl⟩, _, rfl, _, _,
      ⟨d, (List.append_nil d).symm, hd, hdd, rfl⟩, hday, rfl⟩

end Calendar

namespace Format

open Pattern

/-- A local part and a domain around the only at sign: the local part is not empty, and the domain has a dot. -/
def Email (cs : List Char) : Prop := ∃ l d : List Char, cs = l ++ '@' :: d ∧
  '@' ∉ l ∧ '@' ∉ d ∧ l ≠ [] ∧ '.' ∈ d

/-- A scheme, which is a letter and then letters, digits, plus signs, dots and hyphens, and after `://` something
without blanks that does not start with a slash, a question mark or a number sign. -/
def Url (cs : List Char) : Prop := ∃ letter scheme c rest, cs = letter :: scheme ++ "://".toList ++ c :: rest ∧
  letter.isAlpha = true ∧ (∀ d ∈ scheme, d.isAlphanum = true ∨ d ∈ ['+', '.', '-']) ∧
    c ∉ ['/', '?', '#'] ∧ ∀ d ∈ c :: rest, Text.isBlank d = false

/-- Groups of hexadecimal digits of the given lengths, joined by hyphens. -/
def HexGroups (lengths : List Nat) (cs : List Char) : Prop := ∃ groups, cs = ['-'].intercalate groups ∧
  groups.map List.length = lengths ∧ ∀ ds ∈ groups, ∀ c ∈ ds, c ∈ "0123456789abcdefABCDEF".toList

variable {cs rest : List Char} {c : Char}

/-- A scan that stops at `c` has passed over a run of the class, which `c` does not belong to. -/
theorem split_of_dropWhile {p : Char → Bool} (h : cs.dropWhile p = c :: rest) :
    cs = cs.takeWhile p ++ c :: rest ∧ (∀ d ∈ cs.takeWhile p, p d = true) ∧ p c = false := by
  have hstop := List.head_dropWhile_not p (l := cs) (by rw [h]; exact List.cons_ne_nil c rest)
  refine ⟨?_, List.all_eq_true.1 List.all_takeWhile, ?_⟩
  · rw [← h, List.takeWhile_append_dropWhile]
  · simp only [h, List.head_cons] at hstop
    exact hstop

theorem isEmail_iff : isEmail cs = true ↔ Email cs := by
  unfold isEmail
  constructor
  · intro h
    split at h
    · cases h
    rename_i c d hd
    obtain ⟨hcs, hlocal, hc⟩ := split_of_dropWhile hd
    obtain rfl : c = '@' := bne_eq_false_iff_eq.1 hc
    simp only [Bool.and_eq_true, Bool.not_eq_true', List.contains_iff_mem, ← Bool.not_eq_true] at h
    obtain ⟨⟨hne, hnone⟩, hdot⟩ := h
    exact ⟨_, d, hcs, fun hm => bne_iff_ne.1 (hlocal _ hm) rfl, hnone, by simpa using hne, hdot⟩
  · rintro ⟨l, d, rfl, hl, hd, hne, hdot⟩
    have hpos : ∀ c ∈ l, (c != '@') = true := fun c hc => bne_iff_ne.2 fun he => hl (he ▸ hc)
    rw [List.dropWhile_append_of_pos hpos, List.takeWhile_append_of_pos hpos]
    simp [hne, hd, hdot]

theorem contains_letter_iff : letter.contains c = true ↔ c.isAlpha = true := by
  have hupper : c.isUpper = true ↔ 'A' ≤ c ∧ c ≤ 'Z' := decide_eq_true_iff
  have hlower : c.isLower = true ↔ 'a' ≤ c ∧ c ≤ 'z' :=
    Bool.and_eq_true_iff.trans (and_congr decide_eq_true_iff decide_eq_true_iff)
  have halpha : c.isAlpha = true ↔ c.isUpper = true ∨ c.isLower = true := Bool.or_eq_true_iff
  simp [halpha, hupper, hlower, letter, CharClass.contains, Item.contains]

theorem contains_digit_iff : digit.contains c = true ↔ c.isDigit = true := by
  simp [digit, CharClass.contains, Item.contains, Char.isDigit, Char.le_def]

theorem contains_schemeChar_iff : schemeChar.contains c = true ↔ c.isAlphanum = true ∨ c ∈ ['+', '.', '-'] := by
  have hranges : schemeChar.contains c = true ↔
      letter.contains c = true ∨ digit.contains c = true ∨ c ∈ ['+', '.', '-'] := by
    simp [schemeChar, letter, digit, CharClass.contains, Item.contains]
    tauto
  rw [hranges, contains_letter_iff, contains_digit_iff, Char.isAlphanum, Bool.or_eq_true, or_assoc]

theorem contains_hostChar_iff : hostChar.contains c = true ↔ c ∉ ['/', '?', '#'] ∧ Text.isBlank c = false := by
  rw [and_comm]
  simp [hostChar, CharClass.contains, Item.contains]

theorem contains_nonBlank_iff : nonBlank.contains c = true ↔ Text.isBlank c = false := by
  simp [nonBlank, CharClass.contains, Item.contains]

theorem contains_hexDigit_iff : hexDigit.contains c = true ↔ c ∈ "0123456789abcdefABCDEF".toList := by
  constructor
  · intro h
    have hascii : ∀ n < 103, hexDigit.contains (Char.ofNat n) = true →
        Char.ofNat n ∈ "0123456789abcdefABCDEF".toList := by
      decide +kernel
    have hlt : c.toNat < 103 := by
      have hranges := h
      simp only [hexDigit, CharClass.contains, Item.contains, List.any_cons, List.any_nil, Bool.or_false,
        Bool.bne_false, Bool.or_eq_true, Bool.and_eq_true, decide_eq_true_eq, Char.le_def, UInt32.le_iff_toNat_le]
        at hranges
      rcases hranges with ⟨-, hle⟩ | ⟨-, hle⟩ | ⟨-, hle⟩
      · exact Nat.lt_of_le_of_lt hle (by decide)
      · exact Nat.lt_of_le_of_lt hle (by decide)
      · exact Nat.lt_of_le_of_lt hle (by decide)
    have hc := hascii c.toNat hlt
    rw [Char.ofNat_toNat] at hc
    exact hc h
  · intro h
    have hall : "0123456789abcdefABCDEF".toList.all hexDigit.contains = true := by decide
    exact List.all_eq_true.1 hall c h

theorem accepts_urlPattern_iff : urlPattern.accepts cs = true ↔ Url cs := by
  have hlarger : ∀ c, hostChar.contains c = true → nonBlank.contains c = true := fun c hc =>
    contains_nonBlank_iff.2 (contains_hostChar_iff.1 hc).2
  unfold urlPattern
  rw [accepts_append_iff]
  simp only [accepts_append_iff, accepts_text_iff, accepts_one_iff, accepts_singleton_iff,
    accepts_adjacent_iff hlarger, contains_letter_iff, contains_hostChar_iff, contains_nonBlank_iff]
  constructor
  · rintro ⟨_, _, rfl, ⟨_, _, rfl, ⟨l, scheme, rfl, hl, hscheme⟩, rfl⟩, c, rest, rfl, ⟨hc, hblank⟩, hrest⟩
    exact ⟨l, scheme, c, rest, rfl, hl, fun d hd => contains_schemeChar_iff.1 (hscheme.contains d hd), hc,
      List.forall_mem_cons.2 ⟨hblank, hrest⟩⟩
  · rintro ⟨l, scheme, c, rest, rfl, hl, hscheme, hc, hrest⟩
    obtain ⟨hblank, hrest⟩ := List.forall_mem_cons.1 hrest
    refine ⟨_, _, rfl, ⟨_, _, rfl, ⟨l, scheme, rfl, hl, Nat.zero_le _, fun d hd => ?_⟩, rfl⟩, c, rest, rfl,
      ⟨hc, hblank⟩, hrest⟩
    exact contains_schemeChar_iff.2 (hscheme d hd)

theorem accepts_uuidPattern_iff : uuidPattern.accepts cs = true ↔ HexGroups [8, 4, 4, 4, 12] cs := by
  have huuid : uuidPattern = (text "-").intercalate ([8, 4, 4, 4, 12].map fun n => [⟨hexDigit, .exactly n⟩]) := rfl
  rw [huuid, accepts_groups_iff]
  simp only [contains_hexDigit_iff]
  rfl

theorem accepts_datePattern_of_date (h : Calendar.Date cs) : datePattern.accepts cs = true := by
  have hdate : datePattern = (text "-").intercalate ([4, 2, 2].map fun n => [⟨digit, .exactly n⟩]) := rfl
  obtain ⟨y, m, d, rfl, hy, hm, hd, hdigits, -⟩ := h
  simp only [List.forall_mem_append] at hdigits
  obtain ⟨⟨hyd, hmd⟩, hdd⟩ := hdigits
  rw [hdate, accepts_groups_iff]
  simp only [contains_digit_iff]
  refine ⟨[y, m, d], by simp [List.intercalate], by simp [hy, hm, hd], ?_⟩
  exact List.forall_mem_cons.2 ⟨hyd, List.forall_mem_cons.2 ⟨hmd, List.forall_mem_singleton.2 hdd⟩⟩

/-- What the pattern asks of a date is part of its being one. -/
theorem admits_date_iff {s : String} : date.admits s = true ↔ Calendar.Date s.toList := by
  rw [admits, Bool.and_eq_true, Calendar.isDate_iff]
  exact ⟨fun h => h.2, fun h => ⟨accepts_datePattern_of_date h, h⟩⟩

/-- No line break is part of a URL, a UUID or a date. -/
theorem Url.no_break (h : Url cs) : '\n' ∉ cs := by
  obtain ⟨letter, scheme, c, rest, rfl, hletter, hscheme, -, hrest⟩ := h
  simp only [List.mem_append, not_or]
  refine ⟨⟨fun hm => ?_, by decide⟩, fun hm => ?_⟩
  · rcases List.mem_cons.1 hm with rfl | hm
    · cases hletter
    · exact absurd (hscheme _ hm) (by decide)
  · cases hrest _ hm

theorem mem_of_mem_intercalate {sep : List Char} {groups : List (List Char)} (h : c ∈ sep.intercalate groups) :
    c ∈ sep ∨ ∃ ds ∈ groups, c ∈ ds := by
  induction groups with
  | nil => cases h
  | cons ds groups ih =>
    by_cases hg : groups = []
    · rw [hg, List.intercalate_singleton] at h
      exact Or.inr ⟨ds, List.mem_cons_self, h⟩
    · rw [List.intercalate_cons_of_ne_nil hg, List.mem_append, List.mem_append] at h
      rcases h with (h | h) | h
      · exact Or.inr ⟨ds, List.mem_cons_self, h⟩
      · exact Or.inl h
      · refine (ih h).imp id ?_
        rintro ⟨es, he, hc⟩
        exact ⟨es, List.mem_cons_of_mem _ he, hc⟩

theorem HexGroups.no_break {lengths : List Nat} (h : HexGroups lengths cs) : '\n' ∉ cs := by
  obtain ⟨groups, rfl, -, hall⟩ := h
  intro hm
  rcases mem_of_mem_intercalate hm with hsep | ⟨ds, hds, hc⟩
  · exact absurd hsep (by decide)
  · exact absurd (hall ds hds _ hc) (by decide)

theorem Calendar.Date.no_break (h : Calendar.Date cs) : '\n' ∉ cs := by
  obtain ⟨y, m, d, rfl, -, -, -, hdigits, -⟩ := h
  intro hm
  have hbreak : '\n' ∈ y ++ m ++ d := by simpa using hm
  cases hdigits _ hbreak

/-- **The structured formats admit exactly their languages**: email addresses, URLs, UUIDs and dates, and nothing with
a line break in front of the last three or after them. -/
theorem structured_languages (s : String) :
    (email.admits s = true ↔ Email s.toList) ∧ (url.admits s = true ↔ Url s.toList) ∧
    (uuid.admits s = true ↔ HexGroups [8, 4, 4, 4, 12] s.toList) ∧ (date.admits s = true ↔ Calendar.Date s.toList) ∧
    ∀ t, url.admits (s ++ "\n" ++ t) = false ∧ uuid.admits (s ++ "\n" ++ t) = false ∧
      date.admits (s ++ "\n" ++ t) = false := by
  refine ⟨isEmail_iff, accepts_urlPattern_iff, accepts_uuidPattern_iff, admits_date_iff, fun t => ?_⟩
  have hm : '\n' ∈ (s ++ "\n" ++ t).toList := by simp
  refine ⟨?_, ?_, ?_⟩ <;> rw [← Bool.not_eq_true]
  · exact fun h => (accepts_urlPattern_iff.1 h).no_break hm
  · exact fun h => (accepts_uuidPattern_iff.1 h).no_break hm
  · exact fun h => Calendar.Date.no_break (admits_date_iff.1 h) hm

/-- A leap day, in a leap year and in another one. -/
example : date.admits "2024-02-29" = true ∧ date.admits "2023-02-29" = false := by decide +kernel

end Format

end Assay
