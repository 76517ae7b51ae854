import SiteConfig.Toml.Number
/-!
# TOML dates and times

A date, a time of day, or a date with a time, which may have an offset
from universal time. A date is one of the calendar, and a time may have
a leap second.
-/

namespace SiteConfig

namespace Toml

open Reader

/-- Reads a number of so many digits. -/
def fixedNumber (count : Nat) : Reader Nat := fun text =>
  let ds := text.take count
  if ds.length = count ∧ ds.all Char.isDigit then some (valueOf 10 ds, text.drop count) else none

/-- Reads a number of two digits in a range. -/
def twoDigits (low high : Nat) : Reader Nat :=
  require (fun n => low ≤ n && n ≤ high) (fixedNumber 2)

/-- A year with a twenty-ninth of February. -/
def isLeapYear (year : Nat) : Bool := year % 4 == 0 && (year % 100 != 0 || year % 400 == 0)

/-- The number of days in a month. -/
def daysInMonth (year month : Nat) : Nat :=
  if month = 2 then if isLeapYear year then 29 else 28
  else if month ∈ [4, 6, 9, 11] then 30
  else 31

/-- Reads a date. -/
def date : Reader Unit := do
  let year ← fixedNumber 4
  exactly "-"
  let month ← twoDigits 1 12
  exactly "-"
  discard (twoDigits 1 (daysInMonth year month))

/-- Reads a time of day, with or without a fraction of a second. -/
def time : Reader Unit := do
  discard (twoDigits 0 23)
  exactly ":"
  discard (twoDigits 0 59)
  exactly ":"
  discard (twoDigits 0 60)
  discard (optional (exactly "." *> span1 Char.isDigit))

/-- Reads an offset from universal time. -/
def offset : Reader Unit :=
  discard (char fun c => c == 'Z' || c == 'z') <|> do
    discard (char fun c => c == '+' || c == '-')
    discard (twoDigits 0 23)
    exactly ":"
    discard (twoDigits 0 59)

/-- Reads a date, a time, or a date and a time. -/
def moment : Reader Unit :=
  (do
    date
    discard (optional (do
      discard (char fun c => c == 'T' || c == 't' || c == ' ')
      time
      discard (optional offset)))) <|> time

end Toml

end SiteConfig
