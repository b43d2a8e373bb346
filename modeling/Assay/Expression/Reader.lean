import Assay.Constraint.Check
import Assay.Expression.Scan
/-!
# Reading expressions

A union is a list of terms between bars, a term a constraint in brackets, quotes or by name, with a range around it or
after it.  Every reader returns the constraint it has read and the tokens after it, of which there are fewer than
before; a missing part is reported where the reader stands.
-/
namespace Assay

/-- The names that are part of the notation and never name a definition. -/
def keywords : List String := ["string", "number", "boolean", "true", "false", "null"]

/-- What is wrong with a token where something else was looked for. -/
def Token.unexpected (t : Token) (expected : Expectation) : ConstraintError :=
  match t.lexeme with
  | .question => .misplacedOptional t.offset
  | .openBracket | .closeBracket | .closeParen => .unbalancedBrackets t.offset
  | .pipe => .emptyBranch t.offset
  | found => .unexpectedToken expected found t.offset

def Comparator.bounds (c : Comparator) (x : Double) : Option Bound × Option Bound :=
  match c with
  | .gt => (some ⟨x, false⟩, none)
  | .ge => (some ⟨x, true⟩, none)
  | .lt => (none, some ⟨x, false⟩)
  | .le => (none, some ⟨x, true⟩)
  | .eq => (some ⟨x, true⟩, some ⟨x, true⟩)

/-- Whether a comparator includes its bound, if it may stand in a range with two bounds. -/
def Comparator.inclusive? : Comparator → Option Bool
  | .lt => some false
  | .le => some true
  | _ => none

namespace Constraint

/-- The range between two bounds, which has to be well formed. -/
def rangeOf (k : Kind) (bounds : Option Bound × Option Bound) : Except ConstraintError Constraint := do
  checkRange k bounds.1 bounds.2
  return .range k bounds.1 bounds.2

def rangeBetween (k : Kind) (lo : Double) (left : Comparator) (leftOffset : Nat) (right : Comparator)
    (rightOffset : Nat) (hi : Double) : Except ConstraintError Constraint :=
  match left.inclusive?, right.inclusive? with
  | none, _ => .error (.unbalancedRange .mixed leftOffset)
  | some _, none => .error (.unbalancedRange .mixed rightOffset)
  | some l, some r => rangeOf k (some ⟨lo, l⟩, some ⟨hi, r⟩)

/-- The kind that a constraint stands for, if a range may bound it. -/
def boundableKind (c : Constraint) (offset : Nat) : Except ConstraintError Kind :=
  match c with
  | kind k => if k.isBoundable then .ok k else .error (.unboundable c offset)
  | _ => .error (.unboundable c offset)

/-- What is left of some tokens after at least one of them. -/
abbrev Fewer (ts : List Token) := { rest : List Token // rest.length < ts.length }

abbrev NoMore (ts : List Token) := { rest : List Token // rest.length ≤ ts.length }

/-- What is left of a part is left of the whole. -/
def Fewer.within {part ts : List Token} (r : Fewer part) (h : part.length < ts.length) : Fewer ts :=
  ⟨r.1, Nat.lt_trans r.2 h⟩

/-- What is left of a part is left of the whole. -/
def NoMore.within {part ts : List Token} (r : NoMore part) (h : part.length < ts.length) : Fewer ts :=
  ⟨r.1, Nat.lt_of_le_of_lt r.2 h⟩

def startOf (ts : List Token) : Nat := (ts.head?.map (·.offset)).getD 0

/-- The comparator that comes next, if there is one, with its offset. -/
def comparator? : (ts : List Token) → Option (Comparator × Nat × Fewer ts)
  | ⟨.comparator c, offset⟩ :: rest => some (c, offset, ⟨rest, by simp⟩)
  | _ => none

def leftBound? : (ts : List Token) → Option (Double × Comparator × Nat × Fewer ts)
  | ⟨.number x, _⟩ :: ⟨.comparator c, offset⟩ :: rest =>
    some (x, c, offset, ⟨rest, by simp only [List.length_cons]; omega⟩)
  | _ => none

def numericBound : (ts : List Token) → Except ConstraintError (Double × Fewer ts)
  | [] => .error (.unexpectedEnd .numericBound)
  | ⟨.number x, _⟩ :: rest => .ok (x, ⟨rest, by simp⟩)
  | t :: _ => .error (t.unexpected .numericBound)

def endOfRange (ts : List Token) : Except ConstraintError Unit :=
  match comparator? ts with
  | some (_, offset, _) => .error (.unbalancedRange .tooMany offset)
  | none => .ok ()

def startsBranch : List Token → Bool
  | [] => false
  | t :: _ => match t.lexeme with
    | .pipe | .closeBracket | .closeParen | .comma | .question => false
    | _ => true

def bar? : (ts : List Token) → Option (Nat × Fewer ts)
  | ⟨.pipe, offset⟩ :: rest => some (offset, ⟨rest, by simp⟩)
  | _ => none

def closeBracket? : (ts : List Token) → Option (Fewer ts)
  | ⟨.closeBracket, _⟩ :: rest => some ⟨rest, by simp⟩
  | _ => none

/-- The end of a union in parentheses that were opened at `offset`. -/
def closeParen (offset : Nat) : (ts : List Token) → Except ConstraintError (Fewer ts)
  | [] => .error (.unbalancedBrackets offset)
  | t :: rest => match t.lexeme with
    | .closeParen => .ok ⟨rest, by simp⟩
    | .closeBracket => .error (.unbalancedBrackets offset)
    | _ => .error (t.unexpected .closingParen)

/-- What follows an item of a tuple that was opened at `offset`: whether there is another item, and the rest. -/
def separator (offset : Nat) : (ts : List Token) → Except ConstraintError (Bool × Fewer ts)
  | [] => .error (.unbalancedBrackets offset)
  | t :: rest => match t.lexeme with
    | .closeBracket => .ok (false, ⟨rest, by simp⟩)
    | .closeParen => .error (.unbalancedBrackets offset)
    | .comma => match rest with
      | [] => .error (.unbalancedBrackets t.offset)
      | next :: more =>
        if next.lexeme = .closeBracket then .error (.unexpectedToken .tupleElement .closeBracket next.offset)
        else .ok (true, ⟨next :: more, by simp⟩)
    | _ => .error (t.unexpected .tupleSeparator)

/-- The brackets after a constraint, each pair of which makes an array of it. -/
def arrays (c : Constraint) : (ts : List Token) → Except ConstraintError (Constraint × NoMore ts)
  | ⟨.openBracket, _⟩ :: ⟨.closeBracket, _⟩ :: rest => do
    let (c, r) ← arrays c.array rest
    .ok (c, ⟨r.1, by have := r.2; simp only [List.length_cons]; omega⟩)
  | ⟨.openBracket, offset⟩ :: _ => .error (.unbalancedBrackets offset)
  | ts => .ok (c, ⟨ts, Nat.le_refl _⟩)

/-- The suffix after a name: a point and another name, or nothing. -/
def suffix : (ts : List Token) → Except ConstraintError (Option String × NoMore ts)
  | ⟨.dot, _⟩ :: ⟨.identifier name, _⟩ :: rest => .ok (some name, ⟨rest, by simp only [List.length_cons]; omega⟩)
  | ⟨.dot, _⟩ :: t :: _ => .error (t.unexpected .formatName)
  | [⟨.dot, _⟩] => .error (.unexpectedEnd .formatName)
  | ts => .ok (none, ⟨ts, Nat.le_refl _⟩)

def keywordLiteral? (name : String) : Option Literal :=
  if name = "true" then some (.boolean true)
  else if name = "false" then some (.boolean false)
  else if name = "null" then some .null
  else none

def ofName (isDefined : String → Bool) (name : String) (offset : Nat) :
    (suffix : Option String) → Except ConstraintError Constraint
  | none =>
    if name = "string" then .ok (kind .string)
    else if name = "number" then .ok (kind .number)
    else if name = "boolean" then .ok (kind .boolean)
    else if isDefined name then .ok (reference name)
    else .error (.unknownType name offset)
  | some suffix =>
    if name = "string" then
      match Format.ofSuffix? suffix with
      | some f => .ok (format f)
      | none => .error (.unknownFormat name suffix offset)
    else if name = "number" then
      if suffix = "integer" then .ok (kind .integer) else .error (.unknownFormat name suffix offset)
    else if name = "boolean" ∨ isDefined name then .error (.unknownFormat name suffix offset)
    else .error (.unknownType name offset)

def named (isDefined : String → Bool) (name : String) (offset : Nat) (ts : List Token) :
    Except ConstraintError (Constraint × NoMore ts) :=
  match keywordLiteral? name with
  | some l => .ok (literal l, ⟨ts, Nat.le_refl _⟩)
  | none => do
    let (s, r) ← suffix ts
    let c ← ofName isDefined name offset s
    .ok (c, r)

mutual

def readUnion (isDefined : String → Bool) (ts : List Token) : Except ConstraintError (Constraint × Fewer ts) :=
  match bar? ts with
  | some (offset, _) => .error (.emptyBranch offset)
  | none => do
    let (first, r) ← readTerm isDefined ts
    have := r.2
    let (others, r') ← readBranches isDefined r.1
    .ok (if others.isEmpty then first else oneOf (first :: others), r'.within r.2)
termination_by 5 * ts.length + 3

/-- The further alternatives of a union, each after a bar. -/
def readBranches (isDefined : String → Bool) (ts : List Token) :
    Except ConstraintError (List Constraint × NoMore ts) :=
  match bar? ts with
  | none => .ok ([], ⟨ts, Nat.le_refl _⟩)
  | some (offset, rest) => do
    unless startsBranch rest.1 do throw (.emptyBranch offset)
    have := rest.2
    let (c, r) ← readTerm isDefined rest.1
    have := Nat.lt_trans r.2 rest.2
    let (others, r') ← readBranches isDefined r.1
    .ok (c :: others, ⟨r'.1, Nat.le_trans r'.2 (Nat.le_of_lt this)⟩)
termination_by 5 * ts.length

def readTerm (isDefined : String → Bool) (ts : List Token) : Except ConstraintError (Constraint × Fewer ts) :=
  match leftBound? ts with
  | some (lo, left, leftOffset, rest) => do
    have := rest.2
    let (c, r) ← readOperand isDefined rest.1
    let k ← c.boundableKind (startOf rest.1)
    match comparator? r.1 with
    | some (right, rightOffset, after) => do
      let (hi, r') ← numericBound after.1
      endOfRange r'.1
      let range ← rangeBetween k lo left leftOffset right rightOffset hi
      .ok (range, ((r'.within after.2).within r.2).within rest.2)
    | none => do
      let range ← rangeOf k (left.flip.bounds lo)
      .ok (range, r.within rest.2)
  | none => do
    let (c, r) ← readOperand isDefined ts
    match comparator? r.1 with
    | some (right, _, after) => do
      let k ← c.boundableKind (startOf ts)
      let (x, r') ← numericBound after.1
      endOfRange r'.1
      let range ← rangeOf k (right.bounds x)
      .ok (range, (r'.within after.2).within r.2)
    | none => .ok (c, r)
termination_by 5 * ts.length + 2

def readOperand (isDefined : String → Bool) (ts : List Token) : Except ConstraintError (Constraint × Fewer ts) := do
  let (c, r) ← readAtom isDefined ts
  let (c, r') ← arrays c r.1
  .ok (c, r'.within r.2)
termination_by 5 * ts.length + 1

def readAtom (isDefined : String → Bool) (ts : List Token) : Except ConstraintError (Constraint × Fewer ts) :=
  match ts with
  | [] => .error (.unexpectedEnd .type)
  | t :: rest =>
    match t.lexeme with
    | .quoted text => .ok (literal (.string text), ⟨rest, by simp⟩)
    | .number x => .ok (literal (.number x), ⟨rest, by simp⟩)
    | .identifier name => do
      let (c, r) ← named isDefined name t.offset rest
      .ok (c, r.within (by simp))
    | .openParen => do
      let (c, r) ← readUnion isDefined rest
      let r' ← closeParen t.offset r.1
      .ok (c, (r'.within r.2).within (by simp))
    | .openBracket =>
      match closeBracket? rest with
      | some r => .ok (tuple [], r.within (by simp))
      | none => do
        let (items, r) ← readItems isDefined t.offset rest
        .ok (tuple items, r.within (by simp))
    | _ => .error (t.unexpected .type)
termination_by 5 * ts.length

/-- The items of a tuple up to its closing bracket, of which there is at least one; `offset` is that of the opening
bracket. -/
def readItems (isDefined : String → Bool) (offset : Nat) (ts : List Token) :
    Except ConstraintError (List Constraint × Fewer ts) := do
  let (c, r) ← readUnion isDefined ts
  let (more, after) ← separator offset r.1
  if more then
    have := Nat.lt_trans after.2 r.2
    let (items, r') ← readItems isDefined offset after.1
    .ok (c :: items, r'.within this)
  else .ok ([c], after.within r.2)
termination_by 5 * ts.length + 4

end

/-- The constraint that a list of tokens spells: a union and perhaps an optional marker. -/
def ofTokens (isDefined : String → Bool) (ts : List Token) : Except ConstraintError Constraint :=
  if ts.isEmpty then .error .empty
  else do
    let (c, r) ← readUnion isDefined ts
    let c ← match r.1 with
      | [] => .ok c
      | [⟨.question, _⟩] => .ok c.optional
      | ⟨.question, _⟩ :: ⟨.question, offset⟩ :: _ => .error (.misplacedOptional offset)
      | ⟨.question, offset⟩ :: _ => .error (.misplacedOptional offset)
      | t :: _ => .error (t.unexpected .endOfExpression)
    c.check
    return c

/-- The constraint that an expression spells, in which a name may refer to a definition if `isDefined` says so. -/
def parse (isDefined : String → Bool) (s : String) : Except ConstraintError Constraint := do
  ofTokens isDefined (← Token.ofString s)

end Constraint

end Assay
