import Mathlib.Tactic.IntervalCases
import Orm.Calendar.Date

/-!
# `Proofs.Calendar.Days` — days are counted without gaps

The number of a day and the date of a number are inverse to each other on the dates that exist, the day
after a date has the next number, and 1970-01-01 has the number 0. As a later year starts on a later day,
the dates that may be shown are those between two day numbers.

## Contents
- **Spans.** `Spans.total_ofYear`, `Spans.Normal`, `Spans.normal_ofTotal`.
- **Months.** `month_eq_iff`, `daysBefore_succ`, `total_february`.
- **Dates of numbers.** `dayNumber_ofDayNumber`, `valid_ofDayNumber`.
- **Numbers of dates.** `ofDayNumber_dayNumber`, `dayNumber_epoch`, `dayNumber_next`.
- **Years.** `Valid.le_year_iff`, `inRange_ofDayNumber_iff`.
-/

namespace Orm.Calendar

/-! ## Spans -/

theorem isLeapYear_iff (year : Int) :
    isLeapYear year = true ↔ year % 4 = 0 ∧ (year % 100 ≠ 0 ∨ year % 400 = 0) := by
  simp [isLeapYear]

namespace Spans

/-- Every year adds 365 days, and a leap day when its last February has one. -/
theorem total_ofYear (year days : Int) :
    (ofYear year days).total = 365 * year + year / 4 - year / 100 + year / 400 + days := by
  simp only [ofYear, total]
  omega

/-- Spans that are cut as far as they go. A 366th day is the last of four years, and, where these are the
last of a century, the last of four centuries. -/
structure Normal (s : Spans) : Prop where
  centuries : 0 ≤ s.centuries ∧ s.centuries ≤ 3
  quadYears : 0 ≤ s.quadYears ∧ s.quadYears ≤ 24
  years : 0 ≤ s.years ∧ s.years ≤ 3
  days : 0 ≤ s.days ∧ s.days ≤ 365
  leap : s.days = 365 → s.years = 3 ∧ (s.quadYears = 24 → s.centuries = 3)

theorem normal_ofTotal (n : Int) : (ofTotal n).Normal := by
  have rest : 0 ≤ n % 146097 ∧ n % 146097 < 146097 := by omega
  simp only [ofTotal]
  generalize n % 146097 = r at rest ⊢
  obtain ⟨c, same⟩ : ∃ c, c = min (r / 36524) 3 := ⟨_, rfl⟩
  have century : 0 ≤ r - 36524 * c ∧ r - 36524 * c ≤ 36524 ∧ 0 ≤ c ∧ c ≤ 3 ∧
      (c = 3 ∨ r - 36524 * c < 36524) := by omega
  rw [← same]
  clear same
  generalize r - 36524 * c = k at century ⊢
  constructor <;> dsimp only <;> omega

variable {s : Spans}

/-- The spans of a year and a day are found again. -/
theorem Normal.ofYear_year (normal : s.Normal) : ofYear s.year s.days = s := by
  obtain ⟨quadCenturies, centuries, quadYears, years, days⟩ := s
  obtain ⟨century, quadYear, single, -, -⟩ := normal
  dsimp only at century quadYear single
  simp only [ofYear, year, mk.injEq, and_true]
  omega

theorem Normal.isLeapYear (normal : s.Normal) (last : s.days = 365) :
    isLeapYear (s.year + 1) = true := by
  obtain ⟨quadCenturies, centuries, quadYears, years, days⟩ := s
  obtain ⟨century, quadYear, -, -, leap⟩ := normal
  obtain ⟨end_years, end_quads⟩ := leap last
  dsimp only at century quadYear end_years end_quads
  rw [isLeapYear_iff]
  simp only [year]
  omega

end Spans

namespace Date

/-! ## Months -/

/-- The month of a day is the last that starts no later. -/
theorem month_eq_iff {day month : Nat} :
    (5 * day + 2) / 153 = month ↔ daysBefore month ≤ day ∧ day < daysBefore (month + 1) := by
  simp only [daysBefore]
  omega

/-- A month starts when the one before is over. -/
theorem daysBefore_succ {month : Nat} (before : month < 11) (year : Int) :
    daysBefore (month + 1) = daysBefore month + daysInMonth year ((month + 2) % 12 + 1) := by
  interval_cases month <;> rfl

theorem daysInMonth_february (year : Int) :
    daysInMonth year 2 = if isLeapYear year = true then 29 else 28 := rfl

/-- A March year is over at the end of February. -/
theorem total_february (year : Int) : (Spans.ofYear year 0).total =
    (Spans.ofYear (year - 1) (337 + daysInMonth year 2)).total := by
  rw [Spans.total_ofYear, Spans.total_ofYear, daysInMonth_february]
  split
  · next leap =>
    rw [isLeapYear_iff] at leap
    omega
  · next leap =>
    rw [isLeapYear_iff] at leap
    omega

/-! ## Dates of numbers -/

variable {date : Date}

/-- The date of a day number has the March year of the number and its day. -/
theorem marchYear_ofDayNumber (n : Int) :
    (ofDayNumber n).marchYear = (Spans.ofTotal (n + epochDays)).year ∧
      ((daysBefore (ofDayNumber n).monthsSinceMarch : Int) + (ofDayNumber n).day - 1 =
        (Spans.ofTotal (n + epochDays)).days) := by
  obtain ⟨low, high⟩ := (Spans.normal_ofTotal (n + epochDays)).days
  unfold ofDayNumber
  generalize Spans.ofTotal (n + epochDays) = s at low high ⊢
  obtain ⟨day, same⟩ := Int.eq_ofNat_of_zero_le low
  rw [same] at high
  simp only [marchYear, monthsSinceMarch, same, Int.toNat_natCast]
  obtain ⟨month, this⟩ : ∃ month, (5 * day + 2) / 153 = month := ⟨_, rfl⟩
  obtain ⟨start, -⟩ := month_eq_iff.mp this
  have back : ((month + 2) % 12 + 1 + 9) % 12 = month := by omega
  rw [this, back]
  constructor
  · split <;> omega
  · omega

/-- The date of a day number has that day number. -/
theorem dayNumber_ofDayNumber (n : Int) : (ofDayNumber n).dayNumber = n := by
  obtain ⟨year, days⟩ := marchYear_ofDayNumber n
  rw [dayNumber, year, days, (Spans.normal_ofTotal _).ofYear_year, Spans.total_ofTotal]
  omega

/-- The date of a day number exists. -/
theorem valid_ofDayNumber (n : Int) : (ofDayNumber n).Valid := by
  have normal := Spans.normal_ofTotal (n + epochDays)
  have leap := normal.isLeapYear
  obtain ⟨low, high⟩ := normal.days
  unfold ofDayNumber
  generalize Spans.ofTotal (n + epochDays) = s at low high leap ⊢
  obtain ⟨day, same⟩ := Int.eq_ofNat_of_zero_le low
  rw [same] at high leap
  simp only [Valid, same, Int.toNat_natCast]
  obtain ⟨month, this⟩ : ∃ month, (5 * day + 2) / 153 = month := ⟨_, rfl⟩
  obtain ⟨start, stop⟩ := month_eq_iff.mp this
  have last : month ≤ 11 := by omega
  rw [this]
  refine ⟨by omega, by omega, by omega, ?_⟩
  rcases Nat.lt_or_eq_of_le last with before | february
  · rw [daysBefore_succ before] at stop
    exact Nat.add_one_le_iff.mpr (Nat.sub_lt_left_of_lt_add start stop)
  · subst february
    show day - 337 + 1 ≤ if isLeapYear (s.year + 1) = true then 29 else 28
    split
    · omega
    · next short =>
      have other : day ≠ 365 := fun full => short (leap (congrArg Nat.cast full))
      omega

/-! ## Numbers of dates -/

/-- The days of a date since the last March 1. -/
def daysSinceMarch (date : Date) : Nat :=
  daysBefore date.monthsSinceMarch + date.day - 1

/-- A date that exists lies in its month, and on the 366th day only before March 1 of a leap year. -/
theorem Valid.daysSinceMarch (valid : date.Valid) :
    daysBefore date.monthsSinceMarch ≤ date.daysSinceMarch ∧
      date.daysSinceMarch < daysBefore (date.monthsSinceMarch + 1) ∧
      date.daysSinceMarch ≤ 365 ∧
      (date.daysSinceMarch = 365 → isLeapYear (date.marchYear + 1) = true) := by
  obtain ⟨year, month, day⟩ := date
  obtain ⟨first, last, low, high⟩ := valid
  dsimp only at first last low high
  obtain ⟨m, since⟩ : ∃ m, (month + 9) % 12 = m := ⟨_, rfl⟩
  have back : month = (m + 2) % 12 + 1 := by omega
  simp only [Date.daysSinceMarch, monthsSinceMarch, since]
  rcases Nat.lt_or_ge m 11 with before | february
  · have next : daysBefore (m + 1) = daysBefore m + daysInMonth year month :=
      back ▸ daysBefore_succ before year
    have short : daysBefore (m + 1) ≤ 337 := by
      rw [daysBefore]
      omega
    omega
  · obtain rfl : month = 2 := by omega
    obtain rfl : m = 11 := by omega
    have start : daysBefore 11 = 337 := rfl
    have stop : daysBefore 12 = 367 := rfl
    have same : marchYear ⟨year, 2, day⟩ + 1 = year := Int.sub_add_cancel year 1
    have size := daysInMonth_february year
    rw [same, start, stop]
    split at size
    · next leap => exact ⟨by omega, by omega, by omega, fun _ => leap⟩
    · exact ⟨by omega, by omega, by omega, by omega⟩

/-- The number of a day from the March year and the days in it. -/
theorem Valid.dayNumber_eq (valid : date.Valid) :
    date.dayNumber = (Spans.ofYear date.marchYear date.daysSinceMarch).total - epochDays := by
  have low := valid.2.2.1
  have same : (daysBefore date.monthsSinceMarch : Int) + date.day - 1 = date.daysSinceMarch := by
    rw [Date.daysSinceMarch]
    omega
  rw [dayNumber, same]

/-- A date that exists is found again from its day number. -/
theorem ofDayNumber_dayNumber (valid : date.Valid) : ofDayNumber date.dayNumber = date := by
  obtain ⟨start, stop, size, leap⟩ := valid.daysSinceMarch
  have spans : Spans.ofTotal (date.dayNumber + epochDays) =
      Spans.ofYear date.marchYear date.daysSinceMarch := by
    rw [valid.dayNumber_eq, Int.sub_add_cancel]
    exact Spans.ofTotal_total_ofYear (Int.natCast_nonneg _) (Int.ofNat_le.mpr size)
      fun full => leap (Int.ofNat_inj.mp full)
  have months : (5 * date.daysSinceMarch + 2) / 153 = date.monthsSinceMarch :=
    month_eq_iff.mpr ⟨start, stop⟩
  have month : (date.monthsSinceMarch + 2) % 12 + 1 = date.month := by
    have ⟨first, last, _⟩ := valid
    rw [monthsSinceMarch]
    omega
  have day : date.daysSinceMarch - daysBefore date.monthsSinceMarch + 1 = date.day := by
    have low := valid.2.2.1
    rw [Date.daysSinceMarch]
    omega
  have days : (Spans.ofYear date.marchYear date.daysSinceMarch).days.toNat = date.daysSinceMarch :=
    Int.toNat_natCast _
  simp only [ofDayNumber, spans, Spans.year_ofYear, days, months, month, day]
  obtain ⟨year, month, day⟩ := date
  simp only [marchYear, mk.injEq, and_true]
  split <;> omega

/-- Days are counted from the first of the year 1970. -/
theorem dayNumber_epoch : (⟨1970, 1, 1⟩ : Date).dayNumber = 0 := by decide

/-- The date of the day after. -/
def next (date : Date) : Date :=
  if date.day < daysInMonth date.year date.month then { date with day := date.day + 1 }
  else if date.month < 12 then ⟨date.year, date.month + 1, 1⟩
  else ⟨date.year + 1, 1, 1⟩

/-- The day after has the next number. -/
theorem dayNumber_next (valid : date.Valid) : date.next.dayNumber = date.dayNumber + 1 := by
  obtain ⟨year, month, day⟩ := date
  obtain ⟨first, last, -, high⟩ := valid
  dsimp only at first last high
  unfold next
  split
  · simp only [dayNumber, Spans.total_ofYear, monthsSinceMarch, marchYear]
    omega
  · next full =>
    obtain rfl : day = daysInMonth year month := Nat.le_antisymm high (Nat.not_lt.mp full)
    clear high full
    by_cases february : month = 2
    · -- the only month whose last day belongs to another March year than the day after
      subst february
      have start : (⟨year, 3, 1⟩ : Date).dayNumber = (Spans.ofYear year 0).total - epochDays := by
        simp [dayNumber, marchYear, monthsSinceMarch, daysBefore]
      have stop : (⟨year, 2, daysInMonth year 2⟩ : Date).dayNumber =
          (Spans.ofYear (year - 1) (337 + daysInMonth year 2 - 1)).total - epochDays := by
        simp [dayNumber, marchYear, monthsSinceMarch, daysBefore]
      rw [if_pos (by decide : 2 < 12), start, stop, total_february, Spans.total_ofYear, Spans.total_ofYear]
      omega
    · have before : (month + 9) % 12 < 11 := by omega
      have back : ((month + 9) % 12 + 2) % 12 + 1 = month := by omega
      have size := daysBefore_succ before year
      rw [back] at size
      simp only [dayNumber, Spans.total_ofYear, monthsSinceMarch, marchYear]
      split
      · have later : (month + 1 + 9) % 12 = (month + 9) % 12 + 1 := by omega
        rw [later, size]
        dsimp only
        split <;> split <;> omega
      · obtain rfl : month = 12 := by omega
        have later : (1 + 9) % 12 = (12 + 9) % 12 + 1 := rfl
        dsimp only
        rw [later, size, if_pos (by decide), if_neg (by decide)]
        omega

/-! ## Years -/

/-- The number of January 1. -/
theorem dayNumber_january (year : Int) : (⟨year, 1, 1⟩ : Date).dayNumber =
    365 * year + (year - 1) / 4 - (year - 1) / 100 + (year - 1) / 400 - 719527 := by
  have start : (⟨year, 1, 1⟩ : Date).dayNumber =
      (Spans.ofYear (year - 1) 306).total - epochDays := by
    simp [dayNumber, marchYear, monthsSinceMarch, daysBefore]
  rw [start, Spans.total_ofYear, epochDays]
  omega

/-- The days of a year lie between its January 1 and the next. -/
theorem Valid.dayNumber_bounds (valid : date.Valid) :
    (⟨date.year, 1, 1⟩ : Date).dayNumber ≤ date.dayNumber ∧
      date.dayNumber < (⟨date.year + 1, 1, 1⟩ : Date).dayNumber := by
  obtain ⟨start, stop, size, leap⟩ := valid.daysSinceMarch
  have ⟨first, last, _⟩ := valid
  rw [valid.dayNumber_eq, Spans.total_ofYear, dayNumber_january, dayNumber_january, epochDays]
  rw [daysBefore, monthsSinceMarch] at start stop
  rw [marchYear] at leap ⊢
  split at leap
  · next early =>
    rw [if_pos early] at *
    by_cases full : date.daysSinceMarch = 365
    · have := leap full
      rw [isLeapYear_iff] at this
      omega
    · omega
  · next late =>
    rw [if_neg late] at *
    omega

/-- A date is in a year or in a later one just if it is not before the January 1 of the year. -/
theorem Valid.le_year_iff (valid : date.Valid) (year : Int) :
    year ≤ date.year ↔ (⟨year, 1, 1⟩ : Date).dayNumber ≤ date.dayNumber := by
  obtain ⟨start, stop⟩ := valid.dayNumber_bounds
  rw [dayNumber_january] at *
  omega

/-- The first day that a text may show. -/
def firstDay : Int := dayNumber ⟨minYear, 1, 1⟩

/-- The last day that a text may show. -/
def lastDay : Int := dayNumber ⟨maxYear, 12, 31⟩

/-- A date may be shown just if its day is between the first and the last. -/
theorem inRange_ofDayNumber_iff (n : Int) :
    (ofDayNumber n).inRange = true ↔ firstDay ≤ n ∧ n ≤ lastDay := by
  have low := (valid_ofDayNumber n).le_year_iff minYear
  have high := (valid_ofDayNumber n).le_year_iff (maxYear + 1)
  have last : (⟨maxYear + 1, 1, 1⟩ : Date).dayNumber = lastDay + 1 := by decide
  rw [dayNumber_ofDayNumber] at low high
  rw [inRange, Bool.and_eq_true, decide_eq_true_iff, decide_eq_true_iff, low, ← firstDay]
  omega

end Date

end Orm.Calendar
