import Orm.Proofs.Calendar.Clocks
import Orm.Proofs.Value.Rendered

/-!
# `Proofs.Value.TimeOfDay` — times of day as texts

A text is made a time just if it shows a clock, and the time is what the clock stands for. Every such time is
a time of day and has a text of its own, but for the leap second at the end of a day: that is a day or more,
and has none.

A time is written by its count of seconds, which starts anew every `2 ^ 32` seconds. The times of day are
written as they are; a count that far from the day, or a multiple of that, gets the text of some time of day
as well, and every other count has no text.

## Contents
- **Texts read.** `coerce_clock`, `exists_clock_of_coerce`, `Clock.toInt_ofInt_micros`.
- **Texts written.** `secondsPeriod`, `emod_secondsPeriod_bounds`, `timeText?_eq`, `toJson_time_eq`,
  `exists_clock_of_toJson_time`.
- **Main results.** `Value.coerce_time_text_iff`, `Value.toJson_time_iff`.
-/

namespace Orm

open Text Calendar

/-! ## Texts read -/

namespace Value

/-- A text that shows a clock is made the time of the clock. -/
theorem coerce_clock {s : String} {c : Clock} (shows : trim s.toList = c.text) :
    coerce .time (.text s) = .ok (.time (Int64.ofInt c.micros)) := by
  rw [coerce_time_text_eq, shows, c.readTime_text]

/-- A text that is made a time shows a clock. -/
theorem exists_clock_of_coerce {s : String} {result : Value}
    (h : coerce .time (.text s) = .ok result) : ∃ c : Clock, trim s.toList = c.text := by
  rw [coerce_time_text_eq] at h
  split at h
  · next micros read =>
    obtain ⟨c, shows, -⟩ := readTime_eq_ok_iff.mp read
    exact ⟨c, shows⟩
  · cases h

end Value

/-- The time of a clock has 64 bits. -/
theorem Calendar.Clock.toInt_ofInt_micros (c : Clock) : (Int64.ofInt c.micros).toInt = c.micros := by
  obtain ⟨low, high⟩ := c.micros_bounds
  apply Int64.toInt_ofInt_of_le <;> omega

/-! ## Texts written -/

namespace Calendar

/-- The microseconds after which the count of seconds starts anew. -/
def secondsPeriod : Int :=
  2 ^ 32 * microsPerSecond

/-- What is left after whole periods is less than a period. -/
theorem emod_secondsPeriod_bounds (micros : Int) :
    0 ≤ micros % secondsPeriod ∧ micros % secondsPeriod < secondsPeriod :=
  ⟨Int.emod_nonneg _ (by decide), Int.emod_lt_of_pos _ (by decide)⟩

/-- A count is written as what is left of it after whole periods, and only if that is less than a day. -/
theorem timeText?_eq (micros : Int) : timeText? micros =
    if micros % secondsPeriod < microsPerDay then
      some (clockText (secondOf (micros % secondsPeriod)) (partOf (micros % secondsPeriod)))
    else none := by
  have ⟨nonneg, below⟩ := emod_secondsPeriod_bounds micros
  obtain ⟨rest, same⟩ : ∃ rest, micros % secondsPeriod = rest := ⟨_, rfl⟩
  rw [same] at nonneg below
  -- Neither the seconds as they are counted nor the part of a second change by a whole period.
  have anew : timeText? micros = timeText? rest := by
    have seconds : micros / microsPerSecond % 2 ^ 32 = rest / microsPerSecond % 2 ^ 32 := by
      simp only [secondsPeriod, microsPerSecond] at same ⊢
      omega
    have part : micros % microsPerSecond = rest % microsPerSecond := by
      simp only [secondsPeriod, microsPerSecond] at same ⊢
      omega
    rw [timeText?, timeText?, seconds, part]
  rw [anew, same]
  by_cases day : rest < microsPerDay
  · have time : timeOf rest = rest := Int.emod_eq_of_lt nonneg day
    rw [if_pos day, ← timeText?_timeOf, time]
  · rw [if_neg day, timeText?]
    apply if_neg
    simp only [secondsPeriod, microsPerSecond, microsPerDay] at *
    omega

end Calendar

namespace Value

theorem toJson_time_eq (us : Int64) : (Value.time us).toJson =
    if us.toInt % secondsPeriod < microsPerDay then
      .string (String.ofList
        (clockText (secondOf (us.toInt % secondsPeriod)) (partOf (us.toInt % secondsPeriod))))
    else .null := by
  rw [toJson, timeText?_eq]
  split <;> rfl

/-- What is left of a count after whole periods is the clock that its text shows. -/
theorem exists_clock_of_toJson_time {us : Int64} (day : us.toInt % secondsPeriod < microsPerDay) :
    ∃ c : Clock, (Value.time us).toJson = .string (String.ofList c.text) ∧ c.second.value < 60 ∧
      c.seconds * 1000000 = (us.toInt % secondsPeriod : Int) := by
  obtain ⟨nonneg, -⟩ := emod_secondsPeriod_bounds us.toInt
  obtain ⟨rest, same⟩ : ∃ rest, us.toInt % secondsPeriod = rest := ⟨_, rfl⟩
  rw [same] at nonneg
  have second := secondOf_lt rest
  refine ⟨.ofParts second (partOf rest), ?_, Clock.second_ofParts_lt second _, ?_⟩
  · rw [toJson_time_eq, if_pos day, same, Clock.text_ofParts]
  · have parts : (secondOf rest : Int) * microsPerSecond + partOf rest = rest := by
      rw [secondOf_partOf]
      exact Int.emod_eq_of_lt nonneg (same ▸ day)
    rw [Clock.seconds_ofParts second (partOf_lt rest), same]
    rw [microsPerSecond] at parts
    calc ((secondOf rest : ℚ) + partOf rest / 1000000) * 1000000
        = ((secondOf rest * 1000000 + partOf rest : Int) : ℚ) := by
          push_cast
          ring
      _ = (rest : ℚ) := by rw [parts]

end Value

/-! ## Main results -/

/-- **A text is made a time just if it shows a clock, and the time is a time of day with a text of its own
unless the clock shows the leap second at the end of a day.** Then the time is a day or more, by less than a
second, and has no text. -/
theorem Value.coerce_time_text_iff (s : String) :
    ((∃ result, coerce .time (.text s) = .ok result) ↔ ∃ c : Clock, trim s.toList = c.text) ∧
    ∀ c : Clock, trim s.toList = c.text → ∃ us : Int64,
      coerce .time (.text s) = .ok (.time us) ∧ us.toInt = ⌊c.seconds * 1000000⌋ ∧
      (¬c.IsLeapEnd → 0 ≤ us.toInt ∧ us.toInt < 86400000000 ∧
        ∃ text, (Value.time us).toJson = .string text) ∧
      (c.IsLeapEnd → 86400000000 ≤ us.toInt ∧ us.toInt < 86401000000 ∧
        (Value.time us).toJson = .null) := by
  constructor
  · constructor
    · rintro ⟨result, h⟩
      exact exists_clock_of_coerce h
    · rintro ⟨c, shows⟩
      exact ⟨_, coerce_clock shows⟩
  · intro c shows
    have same := c.toInt_ofInt_micros
    obtain ⟨low, high⟩ := c.micros_bounds
    -- Even with its leap second a clock is far below a period, so the time is written as it stands.
    have first : c.micros % secondsPeriod = c.micros := by
      apply Int.emod_eq_of_lt low
      rw [secondsPeriod, microsPerSecond]
      omega
    refine ⟨_, coerce_clock shows, same, ?_, ?_⟩
    · intro inside
      have day : c.micros < microsPerDay := c.micros_lt_day_iff.mpr inside
      rw [toJson_time_eq, same, first, if_pos day]
      exact ⟨low, day, _, rfl⟩
    · intro beyond
      have day : ¬c.micros < microsPerDay := fun less => c.micros_lt_day_iff.mp less beyond
      rw [toJson_time_eq, same, first, if_neg day]
      exact ⟨Int.not_lt.mp day, high, rfl⟩

/-- A clock in the leap second at the end of a day. -/
def Calendar.Clock.midnight : Clock where
  hour := ⟨[], ['2', '3'], isBlank_of_mem_nil, List.all_eq_true.mp rfl, by decide, by decide, by decide⟩
  minute := ⟨[], ['5', '9'], isBlank_of_mem_nil, List.all_eq_true.mp rfl, by decide, by decide, by decide⟩
  second := ⟨[], ['6', '0'], isBlank_of_mem_nil, List.all_eq_true.mp rfl, by decide, by decide, by decide⟩
  places := ['5']
  isDigit_places := List.all_eq_true.mp rfl

/-- A clock in another leap second, with digits and blanks left to the writer. -/
def Calendar.Clock.breakfast : Clock where
  hour := ⟨[], ['7'], isBlank_of_mem_nil, List.all_eq_true.mp rfl, by decide, by decide, by decide⟩
  minute :=
    ⟨[' '], ['5'], List.all_eq_true.mp rfl, List.all_eq_true.mp rfl, by decide, by decide, by decide⟩
  second := ⟨[], ['6', '0'], isBlank_of_mem_nil, List.all_eq_true.mp rfl, by decide, by decide, by decide⟩
  places := ['0', '0', '0', '0', '0', '1', '9']
  isDigit_places := List.all_eq_true.mp rfl

/-- The leap second at the end of a day is taken for more than a day and has no text; elsewhere a leap
second is the start of the next minute, and a part of a microsecond is dropped. -/
theorem Value.coerce_time_text_iff_midnight :
    coerce .time (.text "23:59:60.5") = .ok (.time 86400500000) ∧
      (Value.time 86400500000).toJson = .null ∧
      coerce .time (.text " 7: 5:60.0000019") = .ok (.time 25560000001) ∧
      ∃ text, (Value.time 25560000001).toJson = .string text := by
  have late : trim "23:59:60.5".toList = Clock.midnight.text := by decide
  have early : trim " 7: 5:60.0000019".toList = Clock.breakfast.text := by decide
  obtain ⟨us, read, same, -, beyond⟩ := (coerce_time_text_iff _).2 _ late
  obtain ⟨us', read', same', inside, -⟩ := (coerce_time_text_iff _).2 _ early
  have count : ⌊Clock.midnight.seconds * 1000000⌋ = 86400500000 :=
    Clock.midnight.micros_eq.trans (by decide)
  have count' : ⌊Clock.breakfast.seconds * 1000000⌋ = 25560000001 :=
    Clock.breakfast.micros_eq.trans (by decide)
  obtain rfl : us = 86400500000 := Int64.toInt_inj.mp (same.trans count)
  obtain rfl : us' = 25560000001 := Int64.toInt_inj.mp (same'.trans count')
  have leap : Clock.midnight.IsLeapEnd := by decide
  have plain : ¬Clock.breakfast.IsLeapEnd := by decide
  exact ⟨read, (beyond leap).2.2, read', (inside plain).2.2⟩

/-- **A count of microseconds has a text just if it is less than a day after a whole number of periods, and
the text shows what is left after them.** So the text stands for the count itself just if that is a time of
day. -/
theorem Value.toJson_time_iff (us : Int64) :
    ((∃ text, (Value.time us).toJson = .string text) ↔
      us.toInt % 4294967296000000 < 86400000000) ∧
    if us.toInt % 4294967296000000 < 86400000000 then
      ∃ c : Clock, (Value.time us).toJson = .string (String.ofList c.text) ∧ c.second.value < 60 ∧
        c.seconds * 1000000 = (us.toInt % 4294967296000000 : Int) ∧
        (c.seconds * 1000000 = us.toInt ↔ 0 ≤ us.toInt ∧ us.toInt < 86400000000)
    else (Value.time us).toJson = .null ∧ ¬(0 ≤ us.toInt ∧ us.toInt < 86400000000) := by
  have period : secondsPeriod = 4294967296000000 := rfl
  constructor
  · have written := toJson_time_eq us
    rw [period, microsPerDay] at written
    rw [written]
    split
    · next day => exact ⟨fun _ => day, fun _ => ⟨_, rfl⟩⟩
    · next day =>
      constructor
      · rintro ⟨text, shown⟩
        cases shown
      · intro less
        exact absurd less day
  · split
    · next day =>
      obtain ⟨c, shown, plain, stands⟩ := exists_clock_of_toJson_time day
      rw [period] at stands
      refine ⟨c, shown, plain, stands, ?_⟩
      rw [stands, Int.cast_inj]
      omega
    · next day =>
      refine ⟨?_, by omega⟩
      rw [toJson_time_eq]
      exact if_neg day

/-- The first second after a period is shown as the first second of the day, and that is what its text
stands for. -/
theorem Value.toJson_time_iff_period :
    (Value.time 4294967297000000).toJson = .string "00:00:01" ∧
      ∃ c : Clock, "00:00:01" = String.ofList c.text ∧ c.seconds * 1000000 = 1000000 ∧
        c.seconds * 1000000 ≠ (4294967297000000 : Int64).toInt := by
  have shown : (Value.time 4294967297000000).toJson = .string "00:00:01" := by
    rw [toJson_time_eq, if_pos (by decide)]
    exact congrArg Json.string (by decide)
  obtain ⟨-, written⟩ := toJson_time_iff 4294967297000000
  rw [if_pos (by decide)] at written
  obtain ⟨c, text, -, rest, same⟩ := written
  refine ⟨shown, c, Json.string.inj (shown.symm.trans text), ?_, ?_⟩
  · rw [rest]
    exact congrArg (Int.cast : Int → ℚ) (by decide : _ = (1000000 : Int))
  · rw [Ne, same]
    decide

end Orm
