import Orm.Proofs.Value.Identifiers
import Orm.Proofs.Value.Temporal

/-!
# `Proofs.Value.Rendered` — values are read back from their JSON texts

A day, a time of day, an instant without a zone and an identifier are rendered as texts; made to fit the
type of the value again, the text gives the value. A year may be before 0 or beyond 9999, a fraction may
have none, three or six places, and no pattern that is tried before the right one takes the text for
something else.

## Contents
- **Texts.** `coerce_date_text_eq`, `coerce_time_text_eq`, `coerce_date_text`, `coerce_time_text`,
  `coerce_timestamp_text`.
- **Main result.** `Value.coerce_toJson`.
-/

namespace Orm

open Text Calendar

/-! ## Texts -/

/-- A text that is there under a condition. -/
theorem string_ite_iff {shown : Prop} [Decidable shown] {a b : String} :
    (if shown then Json.string a else .null) = .string b ↔ shown ∧ a = b := by
  split <;> simp [*]

namespace Value

/-- A text is made the day that is read from it, blanks around it apart. -/
theorem coerce_date_text_eq (s : String) : coerce .date (.text s) =
    match readDate (trim s.toList) with
    | .ok day => .ok (.date (Int32.ofInt day))
    | .error fault => .error (.of "DATE" (.text s) fault.message) := by
  have start : coerce .date (.text s) = coerceDate (.text s) := if_neg Bool.false_ne_true
  cases read : readDate (trim s.toList) with
  | ok found => rw [start, coerceDate, read]
  | error fault => rw [start, coerceDate, read]

/-- A text is made the time that is read from it, blanks around it apart. -/
theorem coerce_time_text_eq (s : String) : coerce .time (.text s) =
    match readTime (trim s.toList) with
    | .ok micros => .ok (.time (Int64.ofInt micros))
    | .error fault => .error (.of "TIME" (.text s) fault.message) := by
  have start : coerce .time (.text s) = coerceTime (.text s) := if_neg Bool.false_ne_true
  cases read : readTime (trim s.toList) with
  | ok found => rw [start, coerceTime, read]
  | error fault => rw [start, coerceTime, read]

theorem coerce_date_text {d : Int32} (range : (Date.ofDayNumber d.toInt).inRange = true) :
    coerce .date (.text (String.ofList (Date.ofDayNumber d.toInt).text)) = .ok (.date d) := by
  have read := readDate_text (Date.valid_ofDayNumber d.toInt) range
  rw [Date.dayNumber_ofDayNumber] at read
  simp only [coerce_date_text_eq, String.toList_ofList, trim_eq_self (isBlank_of_mem_date_text _), read,
    Int32.ofInt_toInt]

theorem coerce_time_text {t : Int64} (same : t.toInt = timeOf t.toInt) :
    coerce .time (.text (String.ofList (clockText (secondOf t.toInt) (partOf t.toInt)))) =
      .ok (.time t) := by
  have read := readTime_clockText (secondOf_lt t.toInt) (partOf_lt t.toInt)
  rw [secondOf_partOf, ← same] at read
  simp only [coerce_time_text_eq, String.toList_ofList, trim_eq_self (isBlank_of_mem_clockText _ _),
    read, Int64.ofInt_toInt]

theorem coerce_timestamp_text {us : Int64} (range : (dateOf us.toInt).inRange = true) :
    coerce .timestamp (.text (String.ofList
      ((dateOf us.toInt).text ++ 'T' :: clockText (secondOf us.toInt) (partOf us.toInt)))) =
        .ok (.timestamp us) := by
  have read := readInstant?_local (valid_dateOf us.toInt) range (secondOf_lt us.toInt)
    (partOf_lt us.toInt)
  rw [dateOf_secondOf_partOf] at read
  have bare : ∀ c ∈ (dateOf us.toInt).text ++ 'T' :: clockText (secondOf us.toInt) (partOf us.toInt),
      isBlank c = false := by
    rw [List.forall_mem_append, List.forall_mem_cons]
    exact ⟨isBlank_of_mem_date_text _, by decide, isBlank_of_mem_clockText _ _⟩
  have start (text : String) : coerce .timestamp (.text text) =
    (coerceInstant (.text text)).map .timestamp := if_neg Bool.false_ne_true
  simp only [start, coerceInstant, String.toList_ofList, trim_eq_self bare, read, Int64.ofInt_toInt,
    Except.map]

end Value

/-! ## Main result -/

/-- **What is rendered as a text is read back.** A day and an instant are rendered as texts just if their
year is one of those that texts may show, from -262143 to 262142; a time of day and an identifier always
are. -/
theorem Value.coerce_toJson :
    (∀ d : Int32,
      ((∃ text, (Value.date d).toJson = .string text) ↔
        Date.firstDay ≤ d.toInt ∧ d.toInt ≤ Date.lastDay) ∧
      ∀ text, (Value.date d).toJson = .string text → coerce .date (.text text) = .ok (.date d)) ∧
    (∀ us : Int64,
      ((∃ text, (Value.timestamp us).toJson = .string text) ↔
        Date.firstDay * 86400000000 ≤ us.toInt ∧ us.toInt < (Date.lastDay + 1) * 86400000000) ∧
      ∀ text, (Value.timestamp us).toJson = .string text →
        coerce .timestamp (.text text) = .ok (.timestamp us)) ∧
    (∀ t : Int64, 0 ≤ t.toInt → t.toInt < 86400000000 →
      ∃ text, (Value.time t).toJson = .string text ∧ coerce .time (.text text) = .ok (.time t)) ∧
    ∀ u : Uuid,
      ∃ text, (Value.uuid u).toJson = .string text ∧ coerce .uuid (.text text) = .ok (.uuid u) := by
  refine ⟨fun d => ?_, fun us => ?_, fun t low high => ?_, fun u => ⟨u.text, by rw [toJson], ?_⟩⟩
  · simp only [toJson_date, string_ite_iff, exists_and_left, exists_eq', and_true,
      ← Date.inRange_ofDayNumber_iff, true_and]
    rintro text ⟨range, rfl⟩
    exact coerce_date_text range
  · simp only [toJson_timestamp, string_ite_iff, exists_and_left, exists_eq', and_true]
    have range := inRange_dateOf_iff us.toInt
    rw [microsPerDay] at range
    refine ⟨range, ?_⟩
    rintro text ⟨range, rfl⟩
    exact coerce_timestamp_text range
  · have same : t.toInt = timeOf t.toInt := (Int.emod_eq_of_lt low high).symm
    exact ⟨_, toJson_time same, coerce_time_text same⟩
  · have start (text : String) : coerce .uuid (.text text) = coerceUuid (.text text) :=
      if_neg Bool.false_ne_true
    rw [start, coerceUuid, Uuid.ofText?_text]

/-- The first day that is shown is read back, an instant of the year 10000, and a time with a fraction. -/
theorem Value.coerce_toJson_ends :
    (Value.date (-96465292)).toJson = .string "-262143-01-01" ∧
      coerce .date (.text "-262143-01-01") = .ok (.date (-96465292)) ∧
      (Value.timestamp 253402300800001500).toJson = .string "+10000-01-01T00:00:00.001500" ∧
      coerce .timestamp (.text "+10000-01-01T00:00:00.001500") =
        .ok (.timestamp 253402300800001500) ∧
      (Value.time 3723004000).toJson = .string "01:02:03.004" ∧
      coerce .time (.text "01:02:03.004") = .ok (.time 3723004000) := by
  have day : (Value.date (-96465292)).toJson = .string "-262143-01-01" := by
    rw [toJson_date, if_pos (by decide)]
    exact congrArg Json.string (by decide)
  have instant : (Value.timestamp 253402300800001500).toJson =
      .string "+10000-01-01T00:00:00.001500" := by
    rw [toJson_timestamp, if_pos (by decide)]
    exact congrArg Json.string (by decide)
  have time : (Value.time 3723004000).toJson = .string "01:02:03.004" := by
    rw [toJson_time (by decide : Int64.toInt 3723004000 = timeOf 3723004000)]
    exact congrArg Json.string (by decide)
  have read_day := (coerce_toJson.1 (-96465292)).2 _ day
  have read_instant := (coerce_toJson.2.1 253402300800001500).2 _ instant
  obtain ⟨text, shown, read⟩ := coerce_toJson.2.2.1 3723004000 (by decide) (by decide)
  obtain rfl : "01:02:03.004" = text := Json.string.inj (time.symm.trans shown)
  exact ⟨day, read_day, instant, read_instant, time, read⟩

end Orm
