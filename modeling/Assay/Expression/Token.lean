import Assay.Constraint.Printer
/-!
# Tokens

An expression is read as a list of lexemes, each with the byte offset at which it starts.
-/
namespace Assay

inductive Comparator
  | lt
  | le
  | gt
  | ge
  | eq
  deriving DecidableEq

namespace Comparator

def symbol : Comparator → String
  | lt => "<"
  | le => "<="
  | gt => ">"
  | ge => ">="
  | eq => "=="

def flip : Comparator → Comparator
  | lt => gt
  | le => ge
  | gt => lt
  | ge => le
  | eq => eq

end Comparator

inductive Lexeme
  | identifier (name : String)
  | number (x : Double)
  /-- The text between quotes, without its escapes. -/
  | quoted (text : String)
  | comparator (c : Comparator)
  | pipe
  | dot
  | comma
  | openBracket
  | closeBracket
  | openParen
  | closeParen
  | question
  deriving DecidableEq

namespace Lexeme

def render : Lexeme → String
  | identifier name => name
  | number x => x.render
  | quoted text => "'" ++ text ++ "'"
  | comparator c => c.symbol
  | pipe => "|"
  | dot => "."
  | comma => ","
  | openBracket => "["
  | closeBracket => "]"
  | openParen => "("
  | closeParen => ")"
  | question => "?"

end Lexeme

structure Token where
  lexeme : Lexeme
  /-- The number of bytes before the lexeme, as UTF-8 encodes them. -/
  offset : Nat
  deriving DecidableEq

end Assay
