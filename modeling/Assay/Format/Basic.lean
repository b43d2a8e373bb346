import Assay.Format.Calendar
import Assay.Format.Pattern
/-!
# String formats

A format is a named set of strings, written `string.suffix` in an expression.  `Format.admits` decides it on the
characters of the whole string, some formats by a pattern: nothing may precede or follow what the format describes.
-/
namespace Assay

inductive Format
  | email
  | url
  | uuid
  | alpha
  | alphanumeric
  | digits
  | lowercase
  | uppercase
  | date
  | datetime
  deriving DecidableEq

namespace Format

def all : List Format := [email, url, uuid, alpha, alphanumeric, digits, lowercase, uppercase, date, datetime]

/-- The name that follows `string.` in an expression. -/
def suffix : Format → String
  | email => "email"
  | url => "url"
  | uuid => "uuid"
  | alpha => "alpha"
  | alphanumeric => "alphanumeric"
  | digits => "digits"
  | lowercase => "lowercase"
  | uppercase => "uppercase"
  | date => "date"
  | datetime => "datetime"

def ofSuffix? (s : String) : Option Format := all.find? (·.suffix == s)

/-- A local part, one `@`, and a domain with a dot in it. -/
def isEmail (cs : List Char) : Bool :=
  match cs.dropWhile (· != '@') with
  | [] => false
  | _ :: domain => !(cs.takeWhile (· != '@')).isEmpty && !domain.contains '@' && domain.contains '.'

section Patterns

open Pattern (CharClass text)

/-- `[A-Za-z]` -/
def letter : CharClass := { items := [.range 'A' 'Z', .range 'a' 'z'] }

/-- `[A-Za-z0-9]` -/
def letterOrDigit : CharClass := { items := [.range 'A' 'Z', .range 'a' 'z', .range '0' '9'] }

/-- `[0-9]` -/
def digit : CharClass := { items := [.range '0' '9'] }

/-- `[0-9a-fA-F]` -/
def hexDigit : CharClass := { items := [.range '0' '9', .range 'a' 'f', .range 'A' 'F'] }

/-- `[a-zA-Z0-9+.\-]` -/
def schemeChar : CharClass :=
  { items := [.range 'a' 'z', .range 'A' 'Z', .range '0' '9', .char '+', .char '.', .char '-'] }

/-- `[^\s/?#]` -/
def hostChar : CharClass := { items := [.blank, .char '/', .char '?', .char '#'], negated := true }

/-- `[^\s]` -/
def nonBlank : CharClass := { items := [.blank], negated := true }

/-- `[a-zA-Z][a-zA-Z0-9+.\-]*://[^\s/?#]+[^\s]*` -/
def urlPattern : Pattern :=
  [⟨letter, .exactly 1⟩, ⟨schemeChar, .atLeast 0⟩] ++ text "://" ++ [⟨hostChar, .atLeast 1⟩, ⟨nonBlank, .atLeast 0⟩]

/-- `[0-9a-fA-F]{8}-[0-9a-fA-F]{4}-[0-9a-fA-F]{4}-[0-9a-fA-F]{4}-[0-9a-fA-F]{12}` -/
def uuidPattern : Pattern :=
  [⟨hexDigit, .exactly 8⟩] ++ text "-" ++ [⟨hexDigit, .exactly 4⟩] ++ text "-" ++ [⟨hexDigit, .exactly 4⟩] ++
    text "-" ++ [⟨hexDigit, .exactly 4⟩] ++ text "-" ++ [⟨hexDigit, .exactly 12⟩]

/-- `[0-9]{4}-[0-9]{2}-[0-9]{2}` -/
def datePattern : Pattern :=
  [⟨digit, .exactly 4⟩] ++ text "-" ++ [⟨digit, .exactly 2⟩] ++ text "-" ++ [⟨digit, .exactly 2⟩]

end Patterns

def admits (format : Format) (s : String) : Bool :=
  let cs := s.toList
  match format with
  | email => isEmail cs
  | url => urlPattern.accepts cs
  | uuid => uuidPattern.accepts cs
  | alpha => Pattern.accepts [⟨letter, .atLeast 0⟩] cs
  | alphanumeric => Pattern.accepts [⟨letterOrDigit, .atLeast 0⟩] cs
  | digits => Pattern.accepts [⟨digit, .atLeast 0⟩] cs
  | lowercase => !cs.any Text.isUppercase
  | uppercase => !cs.any Text.isLowercase
  | date => datePattern.accepts cs && Calendar.isDate cs
  | datetime => Calendar.isTimestamp cs

end Format

end Assay
