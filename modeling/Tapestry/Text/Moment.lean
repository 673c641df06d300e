import Tapestry.Text.Number

/-!
# Moments

A moment is a number of seconds since the start of 1970. It is written as a date and a time of
the day without any offset.
-/

namespace Tapestry.Moment

/-- Year, month and day of a number of days since the start of 1970. The count of years starts
in March, so that a leap day is the last day of its year. -/
def civil (days : Int) : Int × Int × Int :=
  let shifted := days + 719468
  let era := shifted / 146097
  let day := shifted % 146097
  let year := (day - day / 1460 + day / 36524 - day / 146096) / 365
  let inYear := day - (365 * year + year / 4 - year / 100)
  let month := (5 * inYear + 2) / 153
  let inMonth := inYear - (153 * month + 2) / 5 + 1
  let calendar := if month < 10 then month + 3 else month - 9
  (year + era * 400 + (if calendar ≤ 2 then 1 else 0), calendar, inMonth)

/-- A number with at least so many digits. -/
def digits (width : Nat) (n : Int) : Text := Number.padLeft 48 width (Number.nat n.toNat)

/-- Date and time of a number of seconds. -/
def write (seconds : Int) : Text :=
  let (year, month, day) := civil (seconds / 86400)
  let time := seconds % 86400
  digits 4 year ++ "-" ++ digits 2 month ++ "-" ++ digits 2 day ++ "T" ++ digits 2 (time / 3600) ++ ":" ++
    digits 2 (time / 60 % 60) ++ ":" ++ digits 2 (time % 60) ++ "Z"

end Tapestry.Moment
