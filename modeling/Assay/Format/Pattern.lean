import Assay.Text.Class
/-!
# Patterns of whole texts

A pattern is a row of character classes, each with how many characters of it stand there.  It accepts a whole text:
every class takes as many characters as it can, and gives some of them back where the classes after it would not be
satisfied otherwise.
-/
namespace Assay

namespace Pattern

/-- What a class of characters lists: `a-z`, a character, or `\s`. -/
inductive Item
  | range (first last : Char)
  | char (c : Char)
  | blank

/-- A class of characters: those that it lists, or, if it is negated, all others. -/
structure CharClass where
  items : List Item
  negated : Bool := false

/-- How many characters stand one after the other. -/
inductive Repetition
  | exactly (n : Nat)
  | atLeast (n : Nat)

/-- Characters of one class, one after the other. -/
structure Run where
  chars : CharClass
  count : Repetition := .exactly 1

end Pattern

abbrev Pattern := List Pattern.Run

namespace Pattern

def Item.contains : Item → Char → Bool
  | range first last, c => first ≤ c && c ≤ last
  | char d, c => c == d
  | blank, c => Text.isBlank c

def CharClass.contains (k : CharClass) (c : Char) : Bool := k.items.any (·.contains c) != k.negated

/-- Whether `n` characters of the class stand in front of something that `next` accepts. -/
def CharClass.times (k : CharClass) (next : List Char → Bool) : Nat → List Char → Bool
  | 0, cs => next cs
  | _ + 1, [] => false
  | n + 1, c :: cs => k.contains c && k.times next n cs

/-- Whether any number of characters of the class stand in front of something that `next` accepts. -/
def CharClass.star (k : CharClass) (next : List Char → Bool) : List Char → Bool
  | [] => next []
  | c :: cs => k.contains c && k.star next cs || next (c :: cs)

def Run.before (r : Run) (next : List Char → Bool) : List Char → Bool :=
  match r.count with
  | .exactly n => r.chars.times next n
  | .atLeast n => r.chars.times (r.chars.star next) n

/-- Whether the runs of the pattern stand one after the other, and nothing after them. -/
def accepts (p : Pattern) : List Char → Bool := p.foldr Run.before List.isEmpty

/-- The pattern of one text alone. -/
def text (s : String) : Pattern := s.toList.map fun c => { chars := ⟨[.char c], false⟩ }

end Pattern

end Assay
