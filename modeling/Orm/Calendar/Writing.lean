import Orm.Calendar.Date
import Orm.Number.Power
import Orm.Text.Digits

/-!
# `Orm.Calendar.Writing` — dates and times as text

Days, microseconds of a day and microseconds from the epoch in ISO 8601 form. A year has four
digits or more and carries a sign outside 0 to 9999; a fraction of a second has none, three or six
digits, as needed. What no text can show is `none`.

## Contents
- **Units.** `microsPerSecond`, `secondsPerDay`, `microsPerDay`, `dayOf`, `timeOf`.
- **Parts.** `yearText`, `Date.text`, `fractionText`, `clockText`.
- **Values.** `dayText?`, `timeText?`, `instantText?`.
-/

namespace Orm.Calendar

open Text

/-! ## Units -/

/-- Microseconds in a second. -/
def microsPerSecond : Int := 1000000

/-- Seconds in a day. -/
def secondsPerDay : Int := 86400

/-- Microseconds in a day. -/
def microsPerDay : Int := 86400000000

/-- The day of an instant, counted in microseconds from the epoch. -/
def dayOf (micros : Int) : Int :=
  micros / microsPerDay

/-- The microseconds of an instant since midnight. -/
def timeOf (micros : Int) : Int :=
  micros % microsPerDay

/-- Day and time make up the instant. -/
theorem dayOf_timeOf (micros : Int) : dayOf micros * microsPerDay + timeOf micros = micros := by
  simp only [dayOf, timeOf, microsPerDay]
  omega

/-- The time of an instant is a time of day. -/
theorem timeOf_bounds (micros : Int) : 0 ≤ timeOf micros ∧ timeOf micros < microsPerDay := by
  simp only [timeOf, microsPerDay]
  omega

/-! ## Parts -/

/-- A year: four digits, more if needed, and a sign outside 0 to 9999. -/
def yearText (year : Int) : List Char :=
  if year < 0 then '-' :: padded 4 year.natAbs
  else if 9999 < year then '+' :: padded 4 year.natAbs
  else padded 4 year.natAbs

/-- Year, month and day. -/
def Date.text (date : Date) : List Char :=
  yearText date.year ++ '-' :: padded 2 date.month ++ '-' :: padded 2 date.day

/-- The fraction of a second: nothing, milliseconds or microseconds. -/
def fractionText (micros : Nat) : List Char :=
  if micros = 0 then []
  else if micros % 1000 = 0 then '.' :: padded 3 (micros / 1000)
  else '.' :: padded 6 micros

/-- Hours, minutes, seconds and the fraction. -/
def clockText (seconds micros : Nat) : List Char :=
  padded 2 (seconds / 3600) ++ ':' :: padded 2 (seconds / 60 % 60) ++ ':' ::
    padded 2 (seconds % 60) ++ fractionText micros

/-! ## Values -/

/-- The date of a day number. -/
def dayText? (day : Int) : Option (List Char) :=
  let date := Date.ofDayNumber day
  if date.inRange then some date.text else none

/-- The text of a number of microseconds since midnight. The count of seconds is taken in 32 bits
without sign before it is compared with a day. -/
def timeText? (micros : Int) : Option (List Char) :=
  let seconds := (micros / microsPerSecond % 2 ^ 32).toNat
  if seconds < 86400 then some (clockText seconds (micros % microsPerSecond).toNat) else none

/-- Date and time of an instant, with `T` between them. The seconds are counted first and then cut into
days. -/
def instantText? (micros : Int) : Option (List Char) :=
  let seconds := micros / microsPerSecond
  let date := Date.ofDayNumber (seconds / secondsPerDay)
  if date.inRange then
    some (date.text ++ 'T' ::
      clockText (seconds % secondsPerDay).toNat (micros % microsPerSecond).toNat)
  else none

end Orm.Calendar
