import Assay.Text.Digits
/-!
# Dates and times of day in text

Calendar dates `YYYY-MM-DD` of the proleptic Gregorian calendar, and timestamps of a date, a time of day and an offset
from universal time.  Every field has a fixed number of ASCII digits.
-/
namespace Assay.Calendar

def isLeapYear (year : Nat) : Bool := year % 4 == 0 && (year % 100 != 0 || year % 400 == 0)

/-- The days of a month, none for a number that is no month. -/
def daysInMonth (year month : Nat) : Nat :=
  if month = 2 then (if isLeapYear year then 29 else 28)
  else if month = 4 ∨ month = 6 ∨ month = 9 ∨ month = 11 then 30
  else if 1 ≤ month ∧ month ≤ 12 then 31
  else 0

def hasDay (year month day : Nat) : Bool := 1 ≤ day && day ≤ daysInMonth year month

/-- The number that the first `width` characters spell, if all of them are digits, and what follows. -/
def field? (width : Nat) (cs : List Char) : Option (Nat × List Char) :=
  let digits := cs.take width
  if digits.length = width ∧ digits.all Char.isDigit then some (digitsValue digits, cs.drop width) else none

/-- What follows a character that `p` accepts. -/
def mark? (p : Char → Bool) : List Char → Option (List Char)
  | [] => none
  | c :: rest => if p c then some rest else none

def afterDate? (cs : List Char) : Option (List Char) := do
  let (year, cs) ← field? 4 cs
  let cs ← mark? (· == '-') cs
  let (month, cs) ← field? 2 cs
  let cs ← mark? (· == '-') cs
  let (day, cs) ← field? 2 cs
  if hasDay year month day then some cs else none

/-- What follows a time of day, in which a minute may have a leap second and a second any number of decimals. -/
def afterTime? (cs : List Char) : Option (List Char) := do
  let (hour, cs) ← field? 2 cs
  let cs ← mark? (· == ':') cs
  let (minute, cs) ← field? 2 cs
  let cs ← mark? (· == ':') cs
  let (second, cs) ← field? 2 cs
  if hour < 24 ∧ minute < 60 ∧ second ≤ 60 then
    match cs with
    | '.' :: decimals =>
      if (decimals.takeWhile Char.isDigit).isEmpty then none else some (decimals.dropWhile Char.isDigit)
    | _ => some cs
  else none

/-- What follows an offset: `Z` in either case, or a sign, which may be the minus sign U+2212, hours and minutes. -/
def afterOffset? (cs : List Char) : Option (List Char) :=
  match cs with
  | [] => none
  | c :: rest =>
    if c = 'Z' ∨ c = 'z' then some rest
    else if c = '+' ∨ c = '-' ∨ c = '\u2212' then do
      let (hours, cs) ← field? 2 rest
      let cs ← mark? (· == ':') cs
      let (minutes, cs) ← field? 2 cs
      if hours < 24 ∧ minutes < 60 then some cs else none
    else none

def isDate (cs : List Char) : Bool := afterDate? cs == some []

/-- Whether the whole text is a date, a `T` in either case or a space, a time of day and an offset. -/
def isTimestamp (cs : List Char) : Bool :=
  (do afterOffset? (← afterTime? (← mark? (fun c => c == 'T' || c == 't' || c == ' ') (← afterDate? cs)))) == some []

end Assay.Calendar
