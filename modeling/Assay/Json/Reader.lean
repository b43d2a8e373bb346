import Assay.Json.Basic
import Assay.Text.Digits
/-!
# Reading JSON text

The reader accepts standard JSON and keeps what the values keep: the kind of a number and the order of keys, a repeated
key taking its last value at its first place.  A number with a fraction or an exponent, or too large for 64 bits, is
read in two steps, each of which rounds: its leading digits as a whole number, and then one product or quotient with a
power of ten.
-/
namespace Assay

namespace Number

/-- Appends digits to a significand while it fits 64 bits, and counts the digits left out. -/
def absorb (significand : Nat) : List Char → Nat × Nat
  | [] => (significand, 0)
  | c :: rest =>
    let next := significand * 10 + digitValue c
    if next < 0x10000000000000000 then absorb next rest else (significand, rest.length + 1)

@[irreducible] def powerOfTen (k : Nat) : Double := Double.ofDecimal false 1 k

def finite? : Double → Option FiniteDouble
  | .finite x => some x
  | _ => none

/-- The double `x · 10 ^ exponent`, by one product or one quotient with the double nearest to a power of ten.  Below
10⁻³⁰⁸ the quotient is taken in steps, and a product past the largest double is refused. -/
def scale (x : FiniteDouble) (exponent : Int) : Option FiniteDouble :=
  if x.units = 0 then some x
  else if 0 ≤ exponent then do finite? (Double.product x (← finite? (powerOfTen exponent.toNat)))
  else if -308 ≤ exponent then do finite? (Double.quotient x (← finite? (powerOfTen (-exponent).toNat)))
  else do
    let y ← finite? (Double.quotient x (← finite? (powerOfTen 308)))
    scale y (exponent + 308)
termination_by (-exponent).toNat

/-- The double of a number with the given whole and fractional digits and exponent. -/
def ofParts (negative : Bool) (whole fraction : List Char) (exponent : Int) : Option Number := do
  let (start, dropped) := absorb 0 whole
  let (significand, ignored) := absorb start fraction
  let x ← finite? (Double.ofNat significand)
  let y ← scale x (exponent + dropped - ((fraction.length : Int) - ignored))
  some (.double (if negative then y.neg else y))

/-- The number of a token without fraction and exponent: an integer if it fits, but negative zero is a double. -/
def ofDigits (negative : Bool) (whole : List Char) : Option Number :=
  let n : Int := digitsValue whole
  if h : negative = false ∧ FitsInteger n then some (.integer n h.2)
  else if h : negative = true ∧ n ≠ 0 ∧ FitsInteger (-n) then some (.integer (-n) h.2.2)
  else ofParts negative whole [] 0

/-- The exponent that ends a token: nothing, or a letter, an optional sign and digits. -/
def exponent? : List Char → Option Int
  | [] => some 0
  | e :: rest =>
    if e ≠ 'e' ∧ e ≠ 'E' then none
    else
      let (sign, digits) := match rest with
        | '-' :: digits => (-1, digits)
        | '+' :: digits => (1, digits)
        | digits => ((1 : Int), digits)
      if digits ≠ [] ∧ digits.all Char.isDigit then some (sign * digitsValue digits) else none

/-- The number spelled by a token, if it is one: an optional sign, whole digits without a superfluous zero, and then
a fraction and an exponent, each optional. -/
def ofToken? (token : List Char) : Option Number :=
  let (negative, magnitude) := match token with
    | '-' :: rest => (true, rest)
    | rest => (false, rest)
  let whole := magnitude.takeWhile Char.isDigit
  if whole = [] ∨ (whole.head? = some '0' ∧ 1 < whole.length) then none
  else match magnitude.dropWhile Char.isDigit with
    | [] => ofDigits negative whole
    | '.' :: rest =>
      let fraction := rest.takeWhile Char.isDigit
      if fraction = [] then none
      else do ofParts negative whole fraction (← exponent? (rest.dropWhile Char.isDigit))
    | rest => do ofParts negative whole [] (← exponent? rest)

end Number

namespace Json

/-- What is left of `cs` after a nonempty piece of it. -/
abbrev Rest (cs : List Char) := { r : List Char // r.length < cs.length }

def Rest.trans {cs ds : List Char} (h : ds.length < cs.length) (r : Rest ds) : Rest cs := ⟨r.1, Nat.lt_trans r.2 h⟩

def isBlank (c : Char) : Bool := c == ' ' || c == '\n' || c == '\r' || c == '\t'

def isNumeric (c : Char) : Bool := c.isDigit || c == '-' || c == '+' || c == '.' || c == 'e' || c == 'E'

theorem length_dropWhile_le (p : Char → Bool) (cs : List Char) : (cs.dropWhile p).length ≤ cs.length :=
  (List.dropWhile_suffix p).length_le

/-- What follows `c`, if `c` comes next after blanks. -/
def next? (c : Char) : (cs : List Char) → Option (Rest cs)
  | [] => none
  | d :: r =>
    if d = c then some ⟨r, by simp⟩
    else if isBlank d then (next? c r).map (Rest.trans (by simp))
    else none

def hexValue? (c : Char) : Option Nat :=
  if c.isDigit then some (c.toNat - '0'.toNat)
  else if 'a' ≤ c ∧ c ≤ 'f' then some (c.toNat - 'a'.toNat + 10)
  else if 'A' ≤ c ∧ c ≤ 'F' then some (c.toNat - 'A'.toNat + 10)
  else none

def hex4? (a b c d : Char) : Option Nat := do
  some ((((← hexValue? a) * 16 + (← hexValue? b)) * 16 + (← hexValue? c)) * 16 + (← hexValue? d))

/-- The character that a single letter stands for after a backslash. -/
def shortEscape? : Char → Option Char
  | '"' => some '"'
  | '\\' => some '\\'
  | '/' => some '/'
  | 'b' => some '\x08'
  | 'f' => some '\x0c'
  | 'n' => some '\n'
  | 'r' => some '\r'
  | 't' => some '\t'
  | _ => none

/-- The rest of a string after its opening quote: the code units up to the closing quote, and what follows it.  A
character that is written as such counts as one unit, and so does each escape. -/
def units? : (cs : List Char) → Option (List Nat × Rest cs)
  | [] => none
  | '"' :: r => some ([], ⟨r, by simp⟩)
  | '\\' :: 'u' :: a :: b :: c :: d :: r => do
    let n ← hex4? a b c d
    let (text, u) ← units? r
    some (n :: text, u.trans (by simp only [List.length_cons]; omega))
  | '\\' :: e :: r => do
    let c ← shortEscape? e
    let (text, u) ← units? r
    some (c.toNat :: text, u.trans (by simp only [List.length_cons]; omega))
  | c :: r =>
    if c = '\\' ∨ c.toNat < 0x20 then none
    else do
      let (text, u) ← units? r
      some (c.toNat :: text, u.trans (by simp))

/-- The text of code units, in which surrogates have to come in pairs. -/
def ofUnits? : List Nat → Option (List Char)
  | [] => some []
  | high :: rest =>
    if 0xD800 ≤ high ∧ high < 0xDC00 then
      match rest with
      | low :: rest => if 0xDC00 ≤ low ∧ low < 0xE000 then
          (ofUnits? rest).map (Char.ofNat (0x10000 + (high - 0xD800) * 0x400 + (low - 0xDC00)) :: ·)
        else none
      | [] => none
    else if 0xDC00 ≤ high ∧ high < 0xE000 then none
    else (ofUnits? rest).map (Char.ofNat high :: ·)

/-- The text of a string after its opening quote, and what follows its closing quote. -/
def text? (cs : List Char) : Option (String × Rest cs) := do
  let (units, u) ← units? cs
  some (String.ofList (← ofUnits? units), u)

mutual

/-- The value at the front of a text, and the rest. -/
def value? (cs : List Char) : Option (Json × Rest cs) :=
  match cs with
  | [] => none
  | c :: r =>
    if isBlank c then do
      let (v, u) ← value? r
      some (v, u.trans (by simp))
    else if c = '"' then do
      let (text, u) ← text? r
      some (.string text, u.trans (by simp))
    else if c = '[' then
      match next? ']' r with
      | some u => some (.array [], u.trans (by simp))
      | none => do
        let (items, u) ← items? r
        some (.array items, u.trans (by simp))
    else if c = '\x7b' then
      match next? '\x7d' r with
      | some u => some (.object [], u.trans (by simp))
      | none => do
        let (entries, u) ← entries? [] r
        some (.object entries, u.trans (by simp))
    else if c = '-' ∨ c.isDigit then do
      let n ← Number.ofToken? (c :: r.takeWhile isNumeric)
      some (.number n, ⟨r.dropWhile isNumeric, Nat.lt_succ_of_le (length_dropWhile_le _ _)⟩)
    else match c, r with
      | 't', 'r' :: 'u' :: 'e' :: t => some (.bool true, ⟨t, by simp only [List.length_cons]; omega⟩)
      | 'f', 'a' :: 'l' :: 's' :: 'e' :: t => some (.bool false, ⟨t, by simp only [List.length_cons]; omega⟩)
      | 'n', 'u' :: 'l' :: 'l' :: t => some (.null, ⟨t, by simp only [List.length_cons]; omega⟩)
      | _, _ => none
termination_by 2 * cs.length

/-- The items of an array up to its closing bracket, of which there is at least one. -/
def items? (cs : List Char) : Option (List Json × Rest cs) := do
  let (v, u) ← value? cs
  match next? ',' u.1 with
  | some t => do
    have shorter := Nat.lt_trans t.2 u.2
    let (items, w) ← items? t.1
    some (v :: items, w.trans shorter)
  | none => do
    let t ← next? ']' u.1
    some ([v], t.trans u.2)
termination_by 2 * cs.length + 1

/-- The entries of an object up to its closing brace, of which there is at least one, added to `known`. -/
def entries? (known : List (String × Json)) (cs : List Char) : Option (List (String × Json) × Rest cs) := do
  let q ← next? '"' cs
  let (key, u) ← text? q.1
  let s ← next? ':' u.1
  have inside := Nat.lt_trans s.2 (Nat.lt_trans u.2 q.2)
  let (v, w) ← value? s.1
  match next? ',' w.1 with
  | some t => do
    have shorter := Nat.lt_trans t.2 (Nat.lt_trans w.2 inside)
    let (entries, x) ← entries? (bind key v known) t.1
    some (entries, x.trans shorter)
  | none => do
    let t ← next? '\x7d' w.1
    some (bind key v known, t.trans (Nat.lt_trans w.2 inside))
termination_by 2 * cs.length + 1

end

/-- The value that a whole text spells. -/
def ofString? (s : String) : Option Json := do
  let (v, u) ← value? s.toList
  if u.1.all isBlank then some v else none

end Json

end Assay
