import Orm.Proofs.Calendar.Instants
import Orm.Value.Coercion

/-!
# `Proofs.Value.Temporal` — an instant is a day and a time of day

An instant made to fit the type of days and that of times gives two values that make up the instant
again, and they are rendered as the two halves of its own text. Making the day an instant gives the
midnight before, if 64 bits reach that far back.

## Contents
- **Sizes.** `toInt_ofInt_dayOf`, `toInt_ofInt_timeOf`.
- **Rendering.** `toJson_date`, `toJson_time`, `toJson_timestamp`, `toJson_timestampTz`.
- **Midnights.** `coerce_timestamp_date`, `coerce_timestamp_date_error`.
- **Main result.** `Value.coerce_timestamp_parts`.
-/

namespace Orm

open Text Calendar

/-! ## Sizes -/

/-- The day of an instant of 64 bits has 32 bits. -/
theorem toInt_ofInt_dayOf (us : Int64) : (Int32.ofInt (dayOf us.toInt)).toInt = dayOf us.toInt := by
  have low := us.le_toInt
  have high := us.toInt_lt
  refine Int32.toInt_ofInt_of_le ?_ ?_ <;> simp only [dayOf, microsPerDay] <;> omega

/-- A time of day has 64 bits. -/
theorem toInt_ofInt_timeOf (us : Int64) : (Int64.ofInt (timeOf us.toInt)).toInt = timeOf us.toInt := by
  obtain ⟨low, high⟩ := timeOf_bounds us.toInt
  rw [microsPerDay] at high
  refine Int64.toInt_ofInt_of_le ?_ ?_ <;> omega

/-! ## Rendering -/

namespace Value

theorem toJson_date (d : Int32) : (Value.date d).toJson =
    if (Date.ofDayNumber d.toInt).inRange then
      .string (String.ofList (Date.ofDayNumber d.toInt).text)
    else .null := by
  rw [toJson, dayText?]
  split <;> rfl

/-- A time of day is always rendered. -/
theorem toJson_time {t : Int64} {us : Int} (same : t.toInt = timeOf us) : (Value.time t).toJson =
    .string (String.ofList (clockText (secondOf us) (partOf us))) := by
  rw [toJson, same, timeText?_timeOf]
  rfl

theorem toJson_timestamp (us : Int64) : (Value.timestamp us).toJson =
    if (dateOf us.toInt).inRange then .string (String.ofList
      ((dateOf us.toInt).text ++ 'T' :: clockText (secondOf us.toInt) (partOf us.toInt)))
    else .null := by
  rw [toJson, instantText?_eq]
  split <;> rfl

theorem toJson_timestampTz (us : Int64) : (Value.timestampTz us).toJson =
    if (dateOf us.toInt).inRange then .string (String.ofList
      ((dateOf us.toInt).text ++ 'T' :: (clockText (secondOf us.toInt) (partOf us.toInt) ++ ['Z'])))
    else .null := by
  rw [toJson, instantText?_eq]
  split
  · simp only [Option.map_some, List.append_assoc, List.cons_append]
    rfl
  · rfl

/-! ## Midnights -/

variable {d : Int32}

/-- A day as an instant is its midnight. -/
theorem coerce_timestamp_date {midnight : Int64} (same : midnight.toInt = d.toInt * microsPerDay) :
    coerce .timestamp (.date d) = .ok (.timestamp midnight) := by
  have fits : minInteger ≤ midnight.toInt ∧ midnight.toInt ≤ maxInteger :=
    ⟨midnight.le_toInt, Int.le_sub_one_of_lt midnight.toInt_lt⟩
  have instant : coerceInstant (.date d) = .ok midnight := by
    rw [coerceInstant, fitInstant, ← same, if_pos fits, Int64.ofInt_toInt]
  show (coerceInstant (.date d)).map Value.timestamp = _
  rw [instant]
  rfl

/-- A day whose midnight is not an instant of 64 bits is rejected. -/
theorem coerce_timestamp_date_error
    (none : ¬∃ midnight : Int64, midnight.toInt = d.toInt * microsPerDay) :
    coerce .timestamp (.date d) =
      .error ⟨"TIMESTAMP", (Value.date d).describe, "date out of timestamp range"⟩ := by
  have apart : ¬(minInteger ≤ d.toInt * microsPerDay ∧ d.toInt * microsPerDay ≤ maxInteger) :=
    fun ⟨least, greatest⟩ => none ⟨Int64.ofInt (d.toInt * microsPerDay),
      Int64.toInt_ofInt_of_le least (Int.lt_of_le_sub_one greatest)⟩
  have instant : coerceInstant (.date d) =
      .error ⟨"TIMESTAMP", (Value.date d).describe, "date out of timestamp range"⟩ := by
    rw [coerceInstant, fitInstant, if_neg apart]
    rfl
  show (coerceInstant (.date d)).map Value.timestamp = _
  rw [instant]
  rfl

end Value

/-! ## Main result -/

/-- **An instant is made of its day and its time of day.** The day has 32 bits and the time is less than a
day, before the epoch too; the day as an instant is the midnight before, or is rejected where 64 bits do
not reach it. Where texts show the day, the text of the instant is that of the day, `T` and that of the
time; elsewhere neither the instant nor its day has a text. -/
theorem Value.coerce_timestamp_parts (us : Int64) :
    ∃ (d : Int32) (t : Int64),
      coerce .date (.timestamp us) = .ok (.date d) ∧
      coerce .time (.timestamp us) = .ok (.time t) ∧
      d.toInt * 86400000000 + t.toInt = us.toInt ∧ 0 ≤ t.toInt ∧ t.toInt < 86400000000 ∧
      (∀ midnight : Int64, midnight.toInt = us.toInt - t.toInt →
        coerce .timestamp (.date d) = .ok (.timestamp midnight)) ∧
      ((¬∃ midnight : Int64, midnight.toInt = us.toInt - t.toInt) →
        coerce .timestamp (.date d) =
          .error ⟨"TIMESTAMP", (Value.date d).describe, "date out of timestamp range"⟩) ∧
      (Date.firstDay * 86400000000 ≤ us.toInt ∧ us.toInt < (Date.lastDay + 1) * 86400000000 →
        ∃ day time : String, (Value.date d).toJson = .string day ∧
          (Value.time t).toJson = .string time ∧
          (Value.timestamp us).toJson = .string (day ++ "T" ++ time)) ∧
      (¬(Date.firstDay * 86400000000 ≤ us.toInt ∧ us.toInt < (Date.lastDay + 1) * 86400000000) →
        (Value.date d).toJson = .null ∧ (Value.timestamp us).toJson = .null) := by
  have day := toInt_ofInt_dayOf us
  have time := toInt_ofInt_timeOf us
  obtain ⟨low, high⟩ := timeOf_bounds us.toInt
  have parts := dayOf_timeOf us.toInt
  have start : us.toInt - timeOf us.toInt = (Int32.ofInt (dayOf us.toInt)).toInt * microsPerDay := by
    rw [day]
    omega
  have same : Date.ofDayNumber (Int32.ofInt (dayOf us.toInt)).toInt = dateOf us.toInt := by
    rw [day, dateOf]
  refine ⟨Int32.ofInt (dayOf us.toInt), Int64.ofInt (timeOf us.toInt), rfl, rfl, ?_⟩
  rw [time, day, toJson_date, same, toJson_timestamp, toJson_time time, start]
  refine ⟨parts, low, high, fun midnight => coerce_timestamp_date, coerce_timestamp_date_error,
    fun shown => ?_, fun hidden => ?_⟩
  · have range := (inRange_dateOf_iff us.toInt).mpr shown
    rw [if_pos range, if_pos range]
    refine ⟨_, _, rfl, rfl, ?_⟩
    have mark : "T" = String.ofList ['T'] := rfl
    rw [mark, ← String.ofList_append, ← String.ofList_append, List.append_assoc,
      List.singleton_append]
  · have range := mt (inRange_dateOf_iff us.toInt).mp hidden
    rw [if_neg range, if_neg range]
    exact ⟨rfl, rfl⟩

/-- The last microsecond before the epoch belongs to the day before it, whose midnight is an instant; the
day of the smallest instant of 64 bits has none. -/
theorem Value.coerce_timestamp_parts_eve :
    (∃ t, coerce .time (.timestamp (-1)) = .ok (.time t) ∧ t.toInt = 86399999999) ∧
      coerce .timestamp (.date (-1)) = .ok (.timestamp (-86400000000)) ∧
      coerce .timestamp (.date (-106751992)) =
        .error ⟨"TIMESTAMP", (Value.date (-106751992)).describe, "date out of timestamp range"⟩ := by
  have eve : coerce .date (.timestamp (-1)) = .ok (.date (-1)) := rfl
  have least : coerce .date (.timestamp Int64.minValue) = .ok (.date (-106751992)) := rfl
  obtain ⟨d, t, day, time, whole, -, -, back, -⟩ := coerce_timestamp_parts (-1)
  obtain ⟨d', t', day', -, whole', low', -, -, none, -⟩ := coerce_timestamp_parts Int64.minValue
  cases day.symm.trans eve
  cases day'.symm.trans least
  have numbers : (-1 : Int32).toInt = -1 ∧ (-106751992 : Int32).toInt = -106751992 ∧
    (-1 : Int64).toInt = -1 ∧ (-86400000000 : Int64).toInt = -86400000000 := by decide
  obtain ⟨one, first, before, midnight⟩ := numbers
  refine ⟨⟨t, time, by omega⟩, back _ (by omega), none ?_⟩
  rintro ⟨m, same⟩
  have := m.le_toInt
  omega

end Orm
