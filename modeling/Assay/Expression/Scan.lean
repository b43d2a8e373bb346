import Assay.Expression.Error
/-!
# Scanning expressions

An expression is cut from left to right into blanks and lexemes.  `Lexeme.read` sees one lexeme: it gets the first
character and those after it, and says how many of those belong to the lexeme.
-/
namespace Assay

def utf8Length : List Char → Nat
  | [] => 0
  | c :: cs => c.utf8Size + utf8Length cs

def isNameStart (c : Char) : Bool := Text.isAlphabetic c || c == '_'

def isNameChar (c : Char) : Bool := Text.isAlphanumeric c || c == '_'

namespace Lexeme

/-- The lexemes of a single character that starts no other lexeme. -/
def ofChar? : Char → Option Lexeme
  | '|' => some pipe
  | '.' => some dot
  | ',' => some comma
  | '[' => some openBracket
  | ']' => some closeBracket
  | '(' => some openParen
  | ')' => some closeParen
  | '?' => some question
  | _ => none

/-- The text up to the closing quote, in which a backslash stands for the character after it, and the number of
characters read.  There is none if the quote is not closed. -/
def readQuoted (quote : Char) : List Char → Option (List Char × Nat)
  | [] => none
  | c :: rest =>
    if c = '\\' then
      match rest with
      | [] => none
      | escaped :: rest => (readQuoted quote rest).map fun (text, n) => (escaped :: text, n + 2)
    else if c = quote then some ([], 1)
    else (readQuoted quote rest).map fun (text, n) => (c :: text, n + 1)

/-- The digits after a point, if the point is followed by a digit. -/
def fractionOf : List Char → List Char
  | '.' :: rest => rest.takeWhile Char.isDigit
  | _ => []

/-- The number spelled by the digits at the front and a fraction after them, and how many characters spell it. -/
def readNumber (negative : Bool) (cs : List Char) : Lexeme × Nat :=
  let whole := cs.takeWhile Char.isDigit
  let fraction := fractionOf (cs.dropWhile Char.isDigit)
  (number (.ofDecimal negative (digitsValue (whole ++ fraction)) (-(fraction.length : Int))),
    whole.length + if fraction.isEmpty then 0 else fraction.length + 1)

/-- The lexeme that starts with `c`, and how many of the characters after `c` belong to it. -/
def read (offset : Nat) (c : Char) (cs : List Char) : Except ConstraintError (Lexeme × Nat) :=
  let doubled := cs.head? == some '='
  match ofChar? c with
  | some lexeme => .ok (lexeme, 0)
  | none =>
    if c = '<' then .ok (if doubled then (comparator .le, 1) else (comparator .lt, 0))
    else if c = '>' then .ok (if doubled then (comparator .ge, 1) else (comparator .gt, 0))
    else if c = '=' then if doubled then .ok (comparator .eq, 1) else .error (.unexpectedChar c offset)
    else if c = '\'' ∨ c = '"' then
      match readQuoted c cs with
      | some (text, n) => .ok (quoted (String.ofList text), n)
      | none => .error (.unterminatedString offset)
    else if c.isDigit then
      let (lexeme, n) := readNumber false (c :: cs)
      .ok (lexeme, n - 1)
    else if c = '-' then
      if cs.head?.any Char.isDigit then .ok (readNumber true cs) else .error (.unexpectedChar c offset)
    else if isNameStart c then
      let rest := cs.takeWhile isNameChar
      .ok (identifier (String.ofList (c :: rest)), rest.length)
    else .error (.unexpectedChar c offset)

end Lexeme

namespace Token

def scan (offset : Nat) (cs : List Char) : Except ConstraintError (List Token) :=
  match cs with
  | [] => .ok []
  | c :: rest =>
    if Text.isBlank c then scan (offset + c.utf8Size) rest
    else do
      let (lexeme, n) ← Lexeme.read offset c rest
      let tokens ← scan (offset + utf8Length (c :: rest.take n)) (rest.drop n)
      return ⟨lexeme, offset⟩ :: tokens
termination_by cs.length
decreasing_by
  · simp
  · simp only [List.length_drop, List.length_cons]
    omega

def ofString (s : String) : Except ConstraintError (List Token) := scan 0 s.toList

end Token

end Assay
