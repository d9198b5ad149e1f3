/-!
# `Orm.Calendar.Date` — days and dates of the Gregorian calendar

Days are counted from 1970-01-01, years are astronomical (the year before 1 is 0) and the calendar
runs in both directions without end; `inRange` marks the years that texts may show. A year is
counted from March, so that the leap day is its last, and cut into spans of 400, 100, 4 and 1 years.

## Contents
- **Dates.** `Date`, `isLeapYear`, `daysInMonth`, `Date.Valid`, `Date.inRange`.
- **Day numbers.** `Spans`, `Date.dayNumber`, `Date.ofDayNumber`.
-/

namespace Orm.Calendar

/-! ## Dates -/

/-- A year, a month from 1 and a day from 1. -/
structure Date where
  year : Int
  month : Nat
  day : Nat
  deriving DecidableEq, Repr

/-- Every fourth year, but of the full centuries only every fourth. -/
def isLeapYear (year : Int) : Bool :=
  year % 4 == 0 && (year % 100 != 0 || year % 400 == 0)

/-- The number of days of a month. -/
def daysInMonth (year : Int) (month : Nat) : Nat :=
  if month = 2 then (if isLeapYear year then 29 else 28)
  else if month = 4 ∨ month = 6 ∨ month = 9 ∨ month = 11 then 30
  else 31

/-- A date that exists. -/
def Date.Valid (date : Date) : Prop :=
  1 ≤ date.month ∧ date.month ≤ 12 ∧ 1 ≤ date.day ∧ date.day ≤ daysInMonth date.year date.month

instance (date : Date) : Decidable date.Valid :=
  inferInstanceAs (Decidable (_ ∧ _ ∧ _ ∧ _))

/-- The first year that a text may show. -/
def minYear : Int := -262143

/-- The last year that a text may show. -/
def maxYear : Int := 262142

/-- Whether the year of a date may be shown. -/
def Date.inRange (date : Date) : Bool :=
  minYear ≤ date.year && date.year ≤ maxYear

/-! ## Day numbers -/

/-- A March year and a day in it, as the spans that have passed since the March year 0. -/
structure Spans where
  quadCenturies : Int
  centuries : Int
  quadYears : Int
  years : Int
  days : Int
  deriving DecidableEq, Repr

namespace Spans

/-- The spans up to a day of a March year. -/
def ofYear (year days : Int) : Spans :=
  ⟨year / 400, year % 400 / 100, year % 100 / 4, year % 4, days⟩

/-- The March year. -/
def year (s : Spans) : Int :=
  400 * s.quadCenturies + 100 * s.centuries + 4 * s.quadYears + s.years

/-- The number of days in the spans. -/
def total (s : Spans) : Int :=
  146097 * s.quadCenturies + 36524 * s.centuries + 1461 * s.quadYears + 365 * s.years + s.days

/-- The spans in a number of days. The leap day that ends a span of 400 or of 4 years belongs to
the last of its parts. -/
def ofTotal (total : Int) : Spans :=
  let quadCentury := total % 146097
  let centuries := min (quadCentury / 36524) 3
  let century := quadCentury - 36524 * centuries
  let quadYear := century % 1461
  let years := min (quadYear / 365) 3
  ⟨total / 146097, centuries, century / 1461, years, quadYear - 365 * years⟩

/-- No day is lost. -/
theorem total_ofTotal (n : Int) : (ofTotal n).total = n := by
  simp only [ofTotal, total]
  omega

/-- No year is lost. -/
theorem year_ofYear (y d : Int) : (ofYear y d).year = y := by
  simp only [ofYear, year]
  omega

/-- The spans of a day of a year are found again when the day is in the year: the 366th day is
there only in a year whose February is a leap month. -/
theorem ofTotal_total_ofYear {y d : Int} (low : 0 ≤ d) (high : d ≤ 365)
    (leap : d = 365 → isLeapYear (y + 1) = true) : ofTotal (ofYear y d).total = ofYear y d := by
  have leap' : d = 365 → (y + 1) % 4 = 0 ∧ ((y + 1) % 100 ≠ 0 ∨ (y + 1) % 400 = 0) := by
    intro h
    simpa [isLeapYear] using leap h
  have rest : 36524 * (y % 400 / 100) + 1461 * (y % 100 / 4) + 365 * (y % 4) + d < 146097 := by
    omega
  have inQuadCentury : (ofYear y d).total % 146097 =
      36524 * (y % 400 / 100) + 1461 * (y % 100 / 4) + 365 * (y % 4) + d := by
    simp only [ofYear, total]
    omega
  have quadCenturies : (ofYear y d).total / 146097 = y / 400 := by
    simp only [ofYear, total]
    omega
  have century : 1461 * (y % 100 / 4) + 365 * (y % 4) + d ≤ 36524 := by
    omega
  have centuries : min ((36524 * (y % 400 / 100) + 1461 * (y % 100 / 4) + 365 * (y % 4) + d) / 36524) 3 =
      y % 400 / 100 := by
    generalize hc : 1461 * (y % 100 / 4) + 365 * (y % 4) + d = c at *
    omega
  have years : min ((365 * (y % 4) + d) / 365) 3 = y % 4 := by omega
  simp only [ofTotal, inQuadCentury, quadCenturies, centuries]
  have inCentury : 36524 * (y % 400 / 100) + 1461 * (y % 100 / 4) + 365 * (y % 4) + d -
      36524 * (y % 400 / 100) = 1461 * (y % 100 / 4) + (365 * (y % 4) + d) := by omega
  have inQuadYear : (1461 * (y % 100 / 4) + (365 * (y % 4) + d)) % 1461 = 365 * (y % 4) + d := by omega
  have quadYears : (1461 * (y % 100 / 4) + (365 * (y % 4) + d)) / 1461 = y % 100 / 4 := by omega
  simp only [inCentury, inQuadYear, quadYears, years, ofYear]
  congr 1
  omega

end Spans

/-- The days from March 1 of the March year 0 to 1970-01-01. -/
def epochDays : Int := 719468

namespace Date

/-- The number of months since March. -/
def monthsSinceMarch (date : Date) : Nat :=
  (date.month + 9) % 12

/-- The days from March 1 to the first of a month. -/
def daysBefore (monthsSinceMarch : Nat) : Nat :=
  (153 * monthsSinceMarch + 2) / 5

/-- The year in which the last March began. -/
def marchYear (date : Date) : Int :=
  if date.month ≤ 2 then date.year - 1 else date.year

/-- The number of days from 1970-01-01. -/
def dayNumber (date : Date) : Int :=
  (Spans.ofYear date.marchYear
    ((daysBefore date.monthsSinceMarch : Int) + (date.day : Int) - 1)).total - epochDays

/-- The date with a day number. -/
def ofDayNumber (n : Int) : Date :=
  let spans := Spans.ofTotal (n + epochDays)
  let months := (5 * spans.days.toNat + 2) / 153
  let month := (months + 2) % 12 + 1
  { year := if month ≤ 2 then spans.year + 1 else spans.year
    month := month
    day := spans.days.toNat - daysBefore months + 1 }

end Date

end Orm.Calendar
