import Assay.Expression.Token
/-!
# What is wrong with a constraint

The reasons why a text is no expression, and why a constraint that was built otherwise is not well formed.
-/
namespace Assay

inductive Expectation
  | type
  | formatName
  | numericBound
  | closingParen
  | tupleSeparator
  | tupleElement
  | endOfExpression
  deriving DecidableEq

def Expectation.text : Expectation → String
  | type => "a type"
  | formatName => "a format name"
  | numericBound => "a numeric bound"
  | closingParen => "')'"
  | tupleSeparator => "',' or ']'"
  | tupleElement => "a tuple element"
  | endOfExpression => "end of expression"

/-- Why comparators do not make a range. -/
inductive RangeFault
  | tooMany
  | mixed
  deriving DecidableEq

def RangeFault.text : RangeFault → String
  | tooMany => "a range takes at most two comparators"
  | mixed => "double-bounded ranges must use < or <= on both sides"

inductive BoundFault
  | notFinite
  | notLength
  deriving DecidableEq

def BoundFault.text : BoundFault → String
  | notFinite => "bounds must be finite"
  | notLength => "string length bounds must be non-negative integers"

inductive ConstraintError
  | empty
  | unexpectedChar (c : Char) (offset : Nat)
  | unterminatedString (offset : Nat)
  | unexpectedToken (expected : Expectation) (found : Lexeme) (offset : Nat)
  | unexpectedEnd (expected : Expectation)
  | unknownType (name : String) (offset : Nat)
  | unknownFormat (base format : String) (offset : Nat)
  | emptyBranch (offset : Nat)
  | unbalancedRange (fault : RangeFault) (offset : Nat)
  | emptyRange (min max : Double)
  | invalidBound (kind : Kind) (bound : Double) (fault : BoundFault)
  | unboundable (target : Constraint) (offset : Nat)
  | unbalancedBrackets (offset : Nat)
  | misplacedOptional (offset : Nat)
  | degenerateUnion (count : Nat)

namespace ConstraintError

private def place (offset : Nat) : String := " at offset " ++ decimalDigits offset

def message : ConstraintError → String
  | empty => "empty expression"
  | unexpectedChar c offset => "unexpected character '" ++ String.singleton c ++ "'" ++ place offset
  | unterminatedString offset => "unterminated string literal starting" ++ place offset
  | unexpectedToken expected found offset =>
    "expected " ++ expected.text ++ place offset ++ ", found '" ++ found.render ++ "'"
  | unexpectedEnd expected => "expected " ++ expected.text ++ " but the expression ended"
  | unknownType name offset => "unknown type '" ++ name ++ "'" ++ place offset
  | unknownFormat base format offset => "unknown format '" ++ base ++ "." ++ format ++ "'" ++ place offset
  | emptyBranch offset => "empty union branch" ++ place offset
  | unbalancedRange fault offset => "unbalanced range operators" ++ place offset ++ ": " ++ fault.text
  | emptyRange min max => "range " ++ min.render ++ " .. " ++ max.render ++ " is empty"
  | invalidBound kind bound fault => "invalid bound " ++ bound.render ++ " for " ++ kind.keyword ++ ": " ++ fault.text
  | unboundable target offset =>
    "'" ++ target.render ++ "' cannot be bounded (offset " ++ decimalDigits offset ++ ")"
  | unbalancedBrackets offset => "unbalanced brackets" ++ place offset
  | misplacedOptional offset =>
    "optional marker '?' must end the expression (offset " ++ decimalDigits offset ++ ")"
  | degenerateUnion count => "union needs at least two alternatives, got " ++ decimalDigits count

end ConstraintError

end Assay
