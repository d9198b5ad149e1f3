import Orm.Proofs.Calendar.Days
import Orm.Proofs.Calendar.Fields

/-!
# `Proofs.Calendar.Instants` — days, times and instants are read as they were written

An instant is written as the text of its day, the letter `T` and the text of its time of day, though its
seconds are counted from the epoch. What was written without a zone is not read as if it had one, nor with
a blank in the middle; what was written with a zone is read only if its year has four digits, as nothing
else reads a zone.

## Contents
- **Parts.** `dateOf`, `secondOf`, `partOf`, `dateOf_secondOf_partOf`, `inRange_dateOf_iff`.
- **Writing.** `timeText?_timeOf`, `instantText?_eq`.
- **Days and times.** `readDate_text`, `readTime_clockText`.
- **Local texts.** `localFields_marked`, `readLocal?_blanks`, `readInstant?_local`.
- **Texts with a zone.** `readZoned?_append`, `readInstant?_universal`.
- **Blanks.** `isBlank_of_mem_date_text`, `isBlank_of_mem_clockText`.
-/

namespace Orm.Calendar

open Text

/-! ## Parts -/

/-- The seconds of an instant since midnight. -/
def secondOf (micros : Int) : Nat :=
  (timeOf micros / microsPerSecond).toNat

/-- The microseconds of an instant since its last second. -/
def partOf (micros : Int) : Nat :=
  (timeOf micros % microsPerSecond).toNat

theorem secondOf_lt (micros : Int) : secondOf micros < 86400 := by
  obtain ⟨low, high⟩ := timeOf_bounds micros
  simp only [secondOf, microsPerSecond, microsPerDay] at *
  omega

theorem partOf_lt (micros : Int) : partOf micros < 10 ^ 6 := by
  simp only [partOf, microsPerSecond]
  omega

/-- Seconds and their part make up the time of day. -/
theorem secondOf_partOf (micros : Int) :
    (secondOf micros : Int) * microsPerSecond + partOf micros = timeOf micros := by
  obtain ⟨low, -⟩ := timeOf_bounds micros
  simp only [secondOf, partOf, microsPerSecond]
  omega

/-- The date of an instant in universal time. -/
def dateOf (micros : Int) : Date :=
  Date.ofDayNumber (dayOf micros)

theorem valid_dateOf (micros : Int) : (dateOf micros).Valid :=
  Date.valid_ofDayNumber _

theorem dayNumber_dateOf (micros : Int) : (dateOf micros).dayNumber = dayOf micros :=
  Date.dayNumber_ofDayNumber _

/-- The date, the seconds and their part make up the instant. -/
theorem dateOf_secondOf_partOf (micros : Int) : (dateOf micros).dayNumber * microsPerDay +
    ((secondOf micros : Int) * microsPerSecond + partOf micros) = micros := by
  rw [dayNumber_dateOf, secondOf_partOf, dayOf_timeOf]

/-- The date of an instant may be shown just if the instant is not before the first day nor after the
last. -/
theorem inRange_dateOf_iff (micros : Int) : (dateOf micros).inRange = true ↔
    Date.firstDay * microsPerDay ≤ micros ∧ micros < (Date.lastDay + 1) * microsPerDay := by
  rw [dateOf, Date.inRange_ofDayNumber_iff, dayOf, microsPerDay]
  omega

/-! ## Writing -/

/-- The time of day is always written. -/
theorem timeText?_timeOf (micros : Int) :
    timeText? (timeOf micros) = some (clockText (secondOf micros) (partOf micros)) := by
  obtain ⟨low, high⟩ := timeOf_bounds micros
  have wrapped : (timeOf micros / microsPerSecond % 2 ^ 32).toNat = secondOf micros := by
    simp only [secondOf, microsPerSecond, microsPerDay] at *
    omega
  rw [timeText?, wrapped]
  exact if_pos (secondOf_lt micros)

/-- The text of an instant is that of its day, `T` and that of its time. -/
theorem instantText?_eq (micros : Int) : instantText? micros =
    if (dateOf micros).inRange then
      some ((dateOf micros).text ++ 'T' :: clockText (secondOf micros) (partOf micros))
    else none := by
  have day : micros / microsPerSecond / secondsPerDay = dayOf micros := by
    simp only [dayOf, microsPerSecond, secondsPerDay, microsPerDay]
    omega
  have second : (micros / microsPerSecond % secondsPerDay).toNat = secondOf micros := by
    simp only [secondOf, timeOf, microsPerSecond, secondsPerDay, microsPerDay]
    omega
  have part : (micros % microsPerSecond).toNat = partOf micros := by
    simp only [partOf, timeOf, microsPerSecond, microsPerDay]
    omega
  rw [instantText?, day, second, part, dateOf]

/-! ## Days and times -/

variable {date : Date} {seconds micros : Nat} {rest : List Char}

theorem readDate_text (valid : date.Valid) (range : date.inRange = true) :
    readDate date.text = .ok date.dayNumber := by
  have read := dateFields_text valid (year_of_inRange range) []
  rw [List.append_nil] at read
  simp only [readDate, wholly, read, existing_eq valid range, bind, Except.bind, List.isEmpty_nil,
    if_true]

theorem readTime_clockText (day : seconds < 86400) (fits : micros < 10 ^ 6) :
    readTime (clockText seconds micros) = .ok (seconds * microsPerSecond + micros) := by
  have read := clockFields_clockText day fits noDigit_nil nofun
  rw [List.append_nil] at read
  simp only [readTime, wholly, read, bind, Except.bind, List.isEmpty_nil, if_true]

/-! ## Local texts -/

/-- Date and time with a `T` between them are read with a `T` between them. -/
theorem localFields_marked (valid : date.Valid) (range : date.inRange = true)
    (day : seconds < 86400) (fits : micros < 10 ^ 6) (stop : NoDigit rest)
    (point : rest.head? ≠ some '.') :
    localFields markBetween (date.text ++ 'T' :: (clockText seconds micros ++ rest)) =
      .ok ((date, seconds * microsPerSecond + micros), rest) := by
  have read := dateFields_text valid (year_of_inRange range)
  simp only [localFields, read, markBetween, expect_cons, Except.map,
    clockFields_clockText day fits stop point, bind, Except.bind]

/-- No time starts with a `T`. -/
theorem readLocal?_blanks (valid : date.Valid) (range : date.inRange = true) (tail : List Char) :
    readLocal? blanksBetween (date.text ++ 'T' :: tail) = none := by
  have read := dateFields_text valid (year_of_inRange range)
  have mark : trimStart ('T' :: tail) = 'T' :: tail := trimStart_cons (by decide)
  obtain ⟨fault, none⟩ : ∃ fault, digitsBetween 1 2 ('T' :: tail) = .error fault :=
    digitsBetween_error (by decide) (noDigit_cons.mpr rfl)
  simp only [readLocal?, wholly, localFields, read, blanksBetween, clockFields, numberUpTo, mark, none,
    bind, Except.bind]

theorem readZoned?_eq_none {text : List Char} {fault : Fault}
    (none : zonedFields text = .error fault) : readZoned? text = .none := by
  simp only [readZoned?, wholly, none, bind, Except.bind]

/-- A text without a zone is not read as one with a zone. -/
theorem readZoned?_local (valid : date.Valid) (day : seconds < 86400) (fits : micros < 10 ^ 6) :
    readZoned? (date.text ++ 'T' :: clockText seconds micros) = none := by
  by_cases year : 0 ≤ date.year ∧ date.year ≤ 9999
  · have read := fraction_fractionText fits noDigit_nil nofun
    rw [← List.append_nil (clockText seconds micros), clockText_append]
    exact readZoned?_eq_none
      (zonedFields_append valid year (.inl rfl) (by omega) (by omega) (by omega) read)
  · obtain ⟨fault, none⟩ := zonedFields_signed year ('T' :: clockText seconds micros)
    exact readZoned?_eq_none none

/-- An instant without a zone is read as it was written. -/
theorem readInstant?_local (valid : date.Valid) (range : date.inRange = true) (day : seconds < 86400)
    (fits : micros < 10 ^ 6) : readInstant? (date.text ++ 'T' :: clockText seconds micros) =
      some (date.dayNumber * microsPerDay + (seconds * microsPerSecond + micros)) := by
  have read := localFields_marked valid range day fits noDigit_nil nofun
  rw [List.append_nil] at read
  have marked : readLocal? markBetween (date.text ++ 'T' :: clockText seconds micros) =
      some (date.dayNumber * microsPerDay + (seconds * microsPerSecond + micros)) := by
    simp only [readLocal?, wholly, read, existing_eq valid range, bind, Except.bind, List.isEmpty_nil,
      if_true]
  rw [readInstant?, readZoned?_local valid day fits, readLocal?_blanks valid range, marked]
  rfl

/-! ## Texts with a zone -/

/-- The years of four digits may be shown. -/
theorem inRange_of_year (year : 0 ≤ date.year ∧ date.year ≤ 9999) : date.inRange = true := by
  rw [Date.inRange, Bool.and_eq_true, decide_eq_true_iff, decide_eq_true_iff, minYear, maxYear]
  omega

/-- A text of fixed width with a zone stands for its local time less the distance of the zone. -/
theorem readZoned?_append {mark : Char} {hour minute second nanos : Nat} {tail : List Char}
    {offset : Int} (valid : date.Valid) (year : 0 ≤ date.year ∧ date.year ≤ 9999)
    (marked : mark = 'T' ∨ mark = 't' ∨ mark = ' ') (hours : hour ≤ 23) (minutes : minute ≤ 59)
    (seconds : second ≤ 60) (reads : fraction tail = .ok (nanos, rest))
    (zoned : zone rest = .ok (offset, [])) :
    readZoned? (date.text ++ mark ::
        (padded 2 hour ++ ':' :: (padded 2 minute ++ ':' :: (padded 2 second ++ tail)))) =
      some (date.dayNumber * microsPerDay + clockMicros hour minute second nanos -
        offset * microsPerMinute) := by
  have fields := zonedFields_append valid year marked hours minutes seconds reads
  rw [zoned] at fields
  simp only [readZoned?, wholly, fields, existing_eq valid (inRange_of_year year), Except.map, bind,
    Except.bind, List.isEmpty_nil, if_true]

/-- An instant in universal time is read as it was written if its year has four digits; a year with a
sign is not read with a zone. -/
theorem readInstant?_universal (valid : date.Valid) (range : date.inRange = true)
    (day : seconds < 86400) (fits : micros < 10 ^ 6) :
    readInstant? (date.text ++ 'T' :: (clockText seconds micros ++ ['Z'])) =
      if 0 ≤ date.year ∧ date.year ≤ 9999 then
        some (date.dayNumber * microsPerDay + (seconds * microsPerSecond + micros))
      else none := by
  have stop : NoDigit ['Z'] := noDigit_cons.mpr rfl
  have point : ['Z'].head? ≠ some '.' := by decide
  split
  · next year =>
    have zoned : readZoned? (date.text ++ 'T' :: (clockText seconds micros ++ ['Z'])) =
        some (date.dayNumber * microsPerDay + (seconds * microsPerSecond + micros)) := by
      rw [clockText_append, readZoned?_append valid year (.inl rfl) (by omega) (by omega) (by omega)
        (fraction_fractionText fits stop point) rfl, clockMicros_parts, Int.zero_mul, Int.sub_zero]
    rw [readInstant?, zoned]
    rfl
  · next year =>
    obtain ⟨fault, none⟩ := zonedFields_signed year ('T' :: (clockText seconds micros ++ ['Z']))
    have marked : readLocal? markBetween (date.text ++ 'T' :: (clockText seconds micros ++ ['Z'])) =
        .none := by
      have read := localFields_marked valid range day fits stop point
      simp only [readLocal?, wholly, read, bind, Except.bind, List.isEmpty_cons, Bool.false_eq_true,
        if_false]
    rw [readInstant?, readZoned?_eq_none none, readLocal?_blanks valid range, marked]
    rfl

/-! ## Blanks -/

theorem isBlank_of_mem_date_text (date : Date) : ∀ c ∈ date.text, isBlank c = false := by
  have year : ∀ c ∈ yearText date.year, isBlank c = false := by
    unfold yearText
    split
    · exact List.forall_mem_cons.mpr ⟨by decide, isBlank_of_mem_padded⟩
    · split
      · exact List.forall_mem_cons.mpr ⟨by decide, isBlank_of_mem_padded⟩
      · exact isBlank_of_mem_padded
  simp only [Date.text, List.forall_mem_append, List.forall_mem_cons]
  exact ⟨⟨year, by decide, isBlank_of_mem_padded⟩, by decide, isBlank_of_mem_padded⟩

theorem isBlank_of_mem_clockText (seconds micros : Nat) :
    ∀ c ∈ clockText seconds micros, isBlank c = false := by
  have part : ∀ c ∈ fractionText micros, isBlank c = false := by
    unfold fractionText
    split
    · nofun
    · split <;> exact List.forall_mem_cons.mpr ⟨by decide, isBlank_of_mem_padded⟩
  simp only [clockText, List.forall_mem_append, List.forall_mem_cons]
  exact ⟨⟨⟨isBlank_of_mem_padded, by decide, isBlank_of_mem_padded⟩, by decide,
    isBlank_of_mem_padded⟩, part⟩

theorem date_text_ne_nil (date : Date) : date.text ≠ [] := by
  simp [Date.text]

end Orm.Calendar
