import Orm.Proofs.Calendar.Stamps
import Orm.Proofs.Value.Rendered

/-!
# `Proofs.Value.Zoned` — instants in universal time

An instant in universal time is rendered as its local text and the letter `Z`. A zone is read in texts of
fixed width only, where the year has four digits, but the writer writes a year with a sign before 0 and
after 9999; such a text is rejected. A stamp is made the instant it denotes, and is rendered in universal
time, where its year may be another one.

## Contents
- **Texts.** `coerce_timestampTz_text`, `coerce_zoned_text`, `coerce_stamp`.
- **Main result.** `Value.coerce_timestampTz_toJson`.
-/

namespace Orm

open Text Calendar

/-! ## Texts -/

namespace Value

/-- A text without blanks around it is made the instant that is read from it. -/
theorem coerce_timestampTz_text {text : List Char} (trimmed : trim text = text) :
    coerce .timestampTz (.text (String.ofList text)) =
      match readInstant? text with
      | some micros => .ok (.timestampTz (Int64.ofInt micros))
      | none => .error ⟨"TIMESTAMP", (Value.text (String.ofList text)).describe,
          "unrecognized timestamp text"⟩ := by
  have start (text : String) : coerce .timestampTz (.text text) =
    (coerceInstant (.text text)).map .timestampTz := if_neg Bool.false_ne_true
  rw [start, coerceInstant, String.toList_ofList, trimmed]
  cases readInstant? text <;> rfl

/-- The text of an instant in universal time is read back if its year has four digits. -/
theorem coerce_zoned_text {us : Int64} {text : String}
    (shown : (Value.timestampTz us).toJson = .string text) :
    coerce .timestampTz (.text text) =
      if 0 ≤ (dateOf us.toInt).year ∧ (dateOf us.toInt).year ≤ 9999 then .ok (.timestampTz us)
      else .error ⟨"TIMESTAMP", (Value.text text).describe, "unrecognized timestamp text"⟩ := by
  rw [toJson_timestampTz, string_ite_iff] at shown
  obtain ⟨range, rfl⟩ := shown
  have bare : ∀ c ∈ (dateOf us.toInt).text ++ 'T' ::
      (clockText (secondOf us.toInt) (partOf us.toInt) ++ ['Z']), isBlank c = false := by
    simp only [List.forall_mem_append, List.forall_mem_cons]
    exact ⟨isBlank_of_mem_date_text _, by decide, isBlank_of_mem_clockText _ _, by decide, nofun⟩
  have read := readInstant?_universal (valid_dateOf us.toInt) range (secondOf_lt us.toInt)
    (partOf_lt us.toInt)
  rw [dateOf_secondOf_partOf] at read
  rw [coerce_timestampTz_text (trim_eq_self bare), read]
  by_cases year : 0 ≤ (dateOf us.toInt).year ∧ (dateOf us.toInt).year ≤ 9999
  · simp only [if_pos year, Int64.ofInt_toInt]
  · simp only [if_neg year]

/-- A stamp is made its instant. -/
theorem coerce_stamp (s : Stamp) : coerce .timestampTz (.text (String.ofList s.text)) =
    .ok (.timestampTz (Int64.ofInt s.instant)) := by
  rw [coerce_timestampTz_text s.trim_text, s.readInstant?_text]

end Value

/-! ## Main result -/

/-- **An instant in universal time is read back from its text if its year has four digits; a text with a
zone is read as the instant it denotes.** Fractions are rounded down to the microsecond. The text of a year
before 0 or after 9999 is rejected, and so is the rendering of a stamp whose year is such a one in
universal time. -/
theorem Value.coerce_timestampTz_toJson (us : Int64) (s : Stamp) :
    (∀ text, (Value.timestampTz us).toJson = .string text →
      coerce .timestampTz (.text text) =
        if 0 ≤ (dateOf us.toInt).year ∧ (dateOf us.toInt).year ≤ 9999 then .ok (.timestampTz us)
        else .error ⟨"TIMESTAMP", (Value.text text).describe, "unrecognized timestamp text"⟩) ∧
    ∃ instant : Int64, instant.toInt = ⌊s.seconds * 1000000⌋ ∧
      coerce .timestampTz (.text (String.ofList s.text)) = .ok (.timestampTz instant) ∧
      ∃ text, (Value.timestampTz instant).toJson = .string text ∧
        (coerce .timestampTz (.text text) = .ok (.timestampTz instant) ↔
          0 ≤ (dateOf instant.toInt).year ∧ (dateOf instant.toInt).year ≤ 9999) := by
  refine ⟨fun _ => coerce_zoned_text, ?_⟩
  obtain ⟨low, high⟩ := s.instant_bounds
  have same : (Int64.ofInt s.instant).toInt = s.instant := Int64.toInt_ofInt_of_le low high
  have shown : (Value.timestampTz (Int64.ofInt s.instant)).toJson = .string (String.ofList
      ((dateOf s.instant).text ++ 'T' ::
        (clockText (secondOf s.instant) (partOf s.instant) ++ ['Z']))) := by
    rw [toJson_timestampTz, same, if_pos s.inRange_instant]
  refine ⟨_, same, coerce_stamp s, _, shown, ?_⟩
  rw [coerce_zoned_text shown, same]
  split
  · next year => exact ⟨fun _ => year, fun _ => rfl⟩
  · next year => exact ⟨nofun, fun four => absurd four year⟩

/-- A time in the last second of the year 9999, an hour behind universal time. -/
def Calendar.Stamp.lastSecond : Stamp where
  date := ⟨9999, 12, 31⟩
  mark := 't'
  hour := 23
  minute := 59
  second := 59
  places := ['1', '2', '3', '4', '5', '6', '7']
  zone := .behind true ⟨1, 0, by decide, by decide⟩
  valid := by decide
  year := by decide
  marked := by decide
  hour_le := by decide
  minute_le := by decide
  second_le := by decide
  isDigit_places := List.all_eq_true.mp rfl

/-- The year 10000 is written with a sign and not read back; the last second of the year 9999, an hour
behind universal time, is an instant of that year. -/
theorem Value.coerce_timestampTz_toJson_far :
    (Value.timestampTz 253402300800000000).toJson = .string "+10000-01-01T00:00:00Z" ∧
      coerce .timestampTz (.text "+10000-01-01T00:00:00Z") =
        .error ⟨"TIMESTAMP", "TEXT '+10000-01-01T00:00:00Z'", "unrecognized timestamp text"⟩ ∧
      coerce .timestampTz (.text "9999-12-31t23:59:59.1234567-01:00") =
        .ok (.timestampTz 253402304399123456) ∧
      ¬∃ text, (Value.timestampTz 253402304399123456).toJson = .string text ∧
        coerce .timestampTz (.text text) = .ok (.timestampTz 253402304399123456) := by
  have far : (Value.timestampTz 253402300800000000).toJson = .string "+10000-01-01T00:00:00Z" := rfl
  obtain ⟨written, us, same, read, text, shown, back⟩ :=
    coerce_timestampTz_toJson 253402300800000000 Stamp.lastSecond
  have rejected := written _ far
  have year : (dateOf (253402300800000000 : Int64).toInt).year = 10000 := by decide
  rw [year, if_neg (by decide)] at rejected
  have spelled : String.ofList Stamp.lastSecond.text = "9999-12-31t23:59:59.1234567-01:00" := by
    decide
  have instant : ⌊Stamp.lastSecond.seconds * 1000000⌋ = 253402304399123456 :=
    Stamp.lastSecond.instant_eq.trans (by decide)
  obtain rfl : us = 253402304399123456 := Int64.toInt_inj.mp (same.trans instant)
  rw [spelled] at read
  refine ⟨far, rejected, read, ?_⟩
  rintro ⟨other, shown', read'⟩
  obtain rfl : text = other := Json.string.inj (shown.symm.trans shown')
  have year : (dateOf (253402304399123456 : Int64).toInt).year = 10000 := by decide
  have four := (back.mp read').2
  rw [year] at four
  exact absurd four (by decide)

end Orm
