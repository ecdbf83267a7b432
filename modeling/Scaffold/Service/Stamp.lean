import Scaffold.Text.Basic

/-!
# Stamps

The moment of a run, as it stands in the names of archived functions: day, month and year, then
hours, minutes and seconds, all with leading zeros.
-/

namespace Scaffold.Service

/-- A moment of the calendar. -/
structure Moment where
  year : Int
  month : Nat
  day : Nat
  hour : Nat
  minute : Nat
  second : Nat
  deriving DecidableEq, Repr, Inhabited

namespace Moment

def isLeapYear (year : Int) : Bool := year % 4 == 0 && (year % 100 != 0 || year % 400 == 0)

/-- The number of days of a month. -/
def daysIn (year : Int) (month : Nat) : Nat :=
  if month = 2 then (if isLeapYear year then 29 else 28)
  else if month = 4 || month = 6 || month = 9 || month = 11 then 30
  else 31

/-- Whether the calendar has a moment. It reaches 262143 years back and 262142 years ahead. -/
def isValid (m : Moment) : Bool :=
  -262143 ≤ m.year && m.year ≤ 262142 && 1 ≤ m.month && m.month ≤ 12 &&
    1 ≤ m.day && m.day ≤ daysIn m.year m.month && m.hour < 24 && m.minute < 60 && m.second < 60

/-- A year in four digits; a year that needs a sign or more digits has a sign in front. -/
def yearText (year : Int) : Text :=
  if 0 ≤ year && year ≤ 9999 then Text.digits 4 year.toNat
  else (if year < 0 then '-' else '+') :: Text.digits 4 year.natAbs

def stamp (m : Moment) : Text :=
  Text.digits 2 m.day ++ Text.digits 2 m.month ++ yearText m.year ++ '_' ::
    Text.digits 2 m.hour ++ Text.digits 2 m.minute ++ Text.digits 2 m.second

/-- The moment that comes `seconds` after the beginning of the year 1970. The calendar repeats every
400 years, which have 146097 days; years are counted here from the 1st of March, so that a leap day
is the last of its year. -/
def ofSeconds (seconds : Nat) : Moment :=
  let days := seconds / 86400 + 719468
  let day := days % 146097
  let year := (day - day / 1460 + day / 36524 - day / 146096) / 365
  let dayOfYear := day - (365 * year + year / 4 - year / 100)
  let month := (5 * dayOfYear + 2) / 153
  let isNextYear := 10 ≤ month
  { year := (days / 146097 * 400 + year + if isNextYear then 1 else 0 : Nat)
    month := if isNextYear then month - 9 else month + 3
    day := dayOfYear - (153 * month + 2) / 5 + 1
    hour := seconds % 86400 / 3600
    minute := seconds % 3600 / 60
    second := seconds % 60 }

end Moment

end Scaffold.Service
