import Mathlib.Data.Rat.Floor
import Mathlib.Tactic.FieldSimp
import Mathlib.Tactic.Linarith
import Mathlib.Tactic.Ring
import Orm.Proofs.Calendar.Instants

/-!
# `Proofs.Calendar.Stamps` — texts with a zone

A stamp is a date of four-digit year, a time of day with any number of places behind the point, and a
zone: universal time or a distance of less than a day from it. It stands for a number of seconds, a
fraction, from the epoch; every stamp is read as the microseconds that have passed by then.

## Contents
- **Fractions.** `placesText`, `fraction_placesText`, `nanosOf_eq`, `floor_seconds`.
- **Zones.** `Distance`, `Zone`, `zone_text`.
- **Stamps.** `Stamp` with its `text`, its `seconds` and its `instant`; `Stamp.trim_text`.
- **Reading.** `Stamp.instant_eq`, `Stamp.readInstant?_text`.
- **Range.** `Stamp.dayOf_instant`, `Stamp.inRange_instant`, `Stamp.instant_bounds`.
-/

namespace Orm.Calendar

open Text

/-! ## Fractions -/

variable {places rest : List Char}

/-- The places behind a point; there is no point without places. -/
def placesText (places : List Char) : List Char :=
  if places = [] then [] else '.' :: places

theorem fraction_placesText (all : ∀ c ∈ places, c.isDigit = true) (stop : NoDigit rest)
    (point : rest.head? ≠ some '.') :
    fraction (placesText places ++ rest) = .ok (nanosOf places, rest) := by
  unfold placesText
  split
  · next none =>
    subst none
    exact fraction_none point
  · next some => exact fraction_point some all stop

/-- The nanoseconds are the whole ones among the billionths that the places stand for. -/
theorem nanosOf_eq (all : ∀ c ∈ places, c.isDigit = true) :
    nanosOf places = readDigits 0 places * 10 ^ 9 / 10 ^ places.length := by
  rcases Nat.le_total places.length 9 with short | long
  · have power : 10 ^ 9 = 10 ^ (9 - places.length) * 10 ^ places.length := by
      rw [← Nat.pow_add, Nat.sub_add_cancel short]
    rw [nanosOf, List.take_of_length_le short, power, ← Nat.mul_assoc,
      Nat.mul_div_cancel _ (Nat.pow_pos (by decide))]
  · have full : (places.take 9).length = 9 := List.length_take_of_le long
    have power : 10 ^ places.length = 10 ^ (places.drop 9).length * 10 ^ 9 := by
      rw [← Nat.pow_add, List.length_drop, Nat.sub_add_cancel long]
    have small : readDigits 0 (places.drop 9) < 10 ^ (places.drop 9).length :=
      readDigits_lt fun c hc => all c (List.mem_of_mem_drop hc)
    have value : readDigits 0 places =
        readDigits 0 (places.take 9) * 10 ^ (places.drop 9).length + readDigits 0 (places.drop 9) := by
      rw [← readDigits_eq, ← readDigits_append, List.take_append_drop]
    rw [nanosOf, full, power, Nat.mul_div_mul_right _ _ (by decide), value, Nat.add_comm,
      Nat.add_mul_div_right _ _ (Nat.pow_pos (by decide)), Nat.div_eq_of_lt small]
    omega

theorem nanosOf_lt (all : ∀ c ∈ places, c.isDigit = true) : nanosOf places < 10 ^ 9 := by
  rw [nanosOf_eq all]
  exact Nat.div_lt_of_lt_mul (Nat.mul_lt_mul_of_pos_right (readDigits_lt all) (by decide))

/-- Of whole seconds and places behind the point, only the places count for less than a microsecond. -/
theorem floor_seconds (all : ∀ c ∈ places, c.isDigit = true) (whole : Int) :
    ⌊(whole + readDigits 0 places / 10 ^ places.length : ℚ) * 1000000⌋ =
      whole * 1000000 + (nanosOf places / 1000 : Nat) := by
  obtain ⟨scale, power⟩ : ∃ scale : Nat, scale = 10 ^ places.length := ⟨_, rfl⟩
  have apart : (whole + readDigits 0 places / 10 ^ places.length : ℚ) * 1000000 =
      ((whole * 1000000 : Int) : ℚ) + ((readDigits 0 places * 1000000 : Nat) : ℚ) / (scale : ℚ) := by
    rw [power]
    push_cast
    ring
  have micros : nanosOf places / 1000 = readDigits 0 places * 1000000 / scale := by
    have thousand : readDigits 0 places * 10 ^ 9 = readDigits 0 places * 1000000 * 1000 := by omega
    rw [nanosOf_eq all, Nat.div_div_eq_div_mul, ← power, thousand]
    exact Nat.mul_div_mul_right _ scale (by decide : 0 < 1000)
  rw [apart, Int.floor_intCast_add, Rat.floor_natCast_div_natCast, micros, Int.natCast_ediv]

/-! ## Zones -/

/-- A distance from universal time. -/
structure Distance where
  hours : Nat
  minutes : Nat
  hours_le : hours ≤ 23
  minutes_le : minutes ≤ 59

namespace Distance

/-- Hours and minutes of two digits. -/
def text (distance : Distance) : List Char :=
  padded 2 distance.hours ++ ':' :: padded 2 distance.minutes

/-- The distance in minutes. -/
def total (distance : Distance) : Nat :=
  distance.hours * 60 + distance.minutes

theorem zoneMinutes_text (distance : Distance) :
    zoneMinutes distance.text = .ok (distance.total, []) := by
  obtain ⟨hours, minutes, hours_le, minutes_le⟩ := distance
  have hour := digitsBetween_padded (by decide) (by omega : hours < 10 ^ 2) (Nat.le_refl 2)
    (':' :: padded 2 minutes)
  have minute := fixedNumber_padded ⟨minutes.zero_le, minutes_le⟩ (by omega) []
  rw [List.append_nil] at minute
  simp only [zoneMinutes, text, hour, expect_cons, minute, bind, Except.bind, if_pos hours_le, total]

end Distance

/-- Universal time, in a letter of either case, or a distance ahead of it or behind it; the minus may be
a hyphen or the character of that name. -/
inductive Zone where
  | universal (capital : Bool)
  | ahead (distance : Distance)
  | behind (hyphen : Bool) (distance : Distance)

namespace Zone

/-- The zone as it is written. -/
def text : Zone → List Char
  | .universal capital => [if capital then 'Z' else 'z']
  | .ahead distance => '+' :: distance.text
  | .behind hyphen distance => (if hyphen then '-' else '\u2212') :: distance.text

/-- The minutes by which local time is ahead of universal time. -/
def minutes : Zone → Int
  | .universal _ => 0
  | .ahead distance => distance.total
  | .behind _ distance => -distance.total

/-- A zone is less than a day away. -/
theorem minutes_bounds (z : Zone) : -1440 < z.minutes ∧ z.minutes < 1440 := by
  have total_lt (distance : Distance) : distance.total < 1440 := by
    obtain ⟨hours, minutes, hours_le, minutes_le⟩ := distance
    simp only [Distance.total]
    omega
  cases z with
  | universal _ =>
    rw [minutes]
    omega
  | ahead distance | behind _ distance =>
    have := total_lt distance
    simp only [minutes]
    omega

/-- A zone is read as it was written. -/
theorem zone_text (z : Zone) : zone z.text = .ok (z.minutes, []) := by
  cases z with
  | universal capital => cases capital <;> rfl
  | ahead distance =>
    simp [text, zone, distance.zoneMinutes_text, Except.map, minutes]
  | behind hyphen distance =>
    cases hyphen <;> simp [text, zone, distance.zoneMinutes_text, Except.map, minutes]

end Zone

/-! ## Stamps -/

/-- A date and a time of day with a zone, as texts write them: the year has four digits, the second 60 is
a leap second, and date and time are set apart by a `T` of either case or by a blank. -/
structure Stamp where
  date : Date
  mark : Char
  hour : Nat
  minute : Nat
  second : Nat
  places : List Char
  zone : Zone
  valid : date.Valid
  year : 0 ≤ date.year ∧ date.year ≤ 9999
  marked : mark = 'T' ∨ mark = 't' ∨ mark = ' '
  hour_le : hour ≤ 23
  minute_le : minute ≤ 59
  second_le : second ≤ 60
  isDigit_places : ∀ c ∈ places, c.isDigit = true

namespace Stamp

/-- The clock and the zone of a stamp. -/
def clock (s : Stamp) : List Char :=
  padded 2 s.hour ++ ':' ::
    (padded 2 s.minute ++ ':' :: (padded 2 s.second ++ (placesText s.places ++ s.zone.text)))

/-- The characters of a stamp. -/
def text (s : Stamp) : List Char :=
  s.date.text ++ s.mark :: s.clock

/-- The seconds from the epoch that a stamp stands for. -/
def seconds (s : Stamp) : ℚ :=
  s.date.dayNumber * 86400 + s.hour * 3600 + s.minute * 60 + s.second +
    readDigits 0 s.places / 10 ^ s.places.length - s.zone.minutes * 60

/-- The microseconds from the epoch that have passed by then. -/
def instant (s : Stamp) : Int :=
  ⌊s.seconds * 1000000⌋

/-- No blank stands in a stamp but between date and time. -/
theorem trim_text (s : Stamp) : trim s.text = s.text := by
  have distance (d : Distance) : ∀ c ∈ d.text, isBlank c = false := by
    simp only [Distance.text, List.forall_mem_append, List.forall_mem_cons]
    exact ⟨isBlank_of_mem_padded, by decide, isBlank_of_mem_padded⟩
  have zone : ∀ c ∈ s.zone.text, isBlank c = false := by
    cases s.zone with
    | universal capital => cases capital <;> simp [Zone.text] <;> decide
    | ahead d => exact List.forall_mem_cons.mpr ⟨by decide, distance d⟩
    | behind hyphen d =>
      cases hyphen <;> exact List.forall_mem_cons.mpr ⟨by decide, distance d⟩
  have places : ∀ c ∈ placesText s.places, isBlank c = false := by
    unfold placesText
    split
    · nofun
    · exact List.forall_mem_cons.mpr ⟨by decide, fun c hc => isBlank_of_isDigit (s.isDigit_places c hc)⟩
  refine trim_of_parts (date_text_ne_nil s.date) (by simp [clock]) (isBlank_of_mem_date_text _) ?_
  simp only [clock, List.forall_mem_append, List.forall_mem_cons]
  exact ⟨isBlank_of_mem_padded, by decide, isBlank_of_mem_padded, by decide, isBlank_of_mem_padded,
    places, zone⟩

/-! ## Reading -/

/-- The instant counts whole seconds and the nanoseconds of the places. -/
theorem instant_eq (s : Stamp) : s.instant =
    s.date.dayNumber * microsPerDay + clockMicros s.hour s.minute s.second (nanosOf s.places) -
      s.zone.minutes * microsPerMinute := by
  obtain ⟨whole, same⟩ : ∃ whole : Int, whole = s.date.dayNumber * 86400 + s.hour * 3600 +
    s.minute * 60 + s.second - s.zone.minutes * 60 := ⟨_, rfl⟩
  have apart : s.seconds = whole + readDigits 0 s.places / 10 ^ s.places.length := by
    rw [same, seconds]
    push_cast
    ring
  rw [instant, apart, floor_seconds s.isDigit_places, same, clockMicros_eq s.second_le, microsPerDay,
    microsPerSecond, microsPerMinute]
  push_cast
  ring

/-- A zone is neither a digit nor a point. -/
theorem zone_start (z : Zone) : NoDigit z.text ∧ z.text.head? ≠ some '.' := by
  cases z with
  | universal capital => cases capital <;> exact ⟨noDigit_cons.mpr rfl, by decide⟩
  | ahead distance => exact ⟨noDigit_cons.mpr rfl, by simp [Zone.text]⟩
  | behind hyphen distance =>
    cases hyphen <;> exact ⟨noDigit_cons.mpr rfl, by simp [Zone.text]⟩

/-- A stamp is read as its instant. -/
theorem readInstant?_text (s : Stamp) : readInstant? s.text = some s.instant := by
  obtain ⟨stop, point⟩ := zone_start s.zone
  have read : readZoned? s.text = some s.instant := by
    rw [instant_eq, text, clock, readZoned?_append s.valid s.year s.marked s.hour_le s.minute_le
      s.second_le (fraction_placesText s.isDigit_places stop point) s.zone.zone_text]
  rw [readInstant?, read]
  rfl

/-! ## Range -/

/-- A zone moves a stamp to the day before its date or to the day after it at most. -/
theorem dayOf_instant (s : Stamp) :
    s.date.dayNumber - 1 ≤ dayOf s.instant ∧ dayOf s.instant ≤ s.date.dayNumber + 1 := by
  have zone := s.zone.minutes_bounds
  have nanos := nanosOf_lt s.isDigit_places
  have ⟨hour, minute, second⟩ := And.intro s.hour_le (And.intro s.minute_le s.second_le)
  rw [instant_eq, clockMicros_eq second, dayOf, microsPerDay, microsPerSecond, microsPerMinute]
  omega

/-- The dates of four-digit years are days -719528 to 2932896. -/
theorem dayNumber_bounds (s : Stamp) : -719528 ≤ s.date.dayNumber ∧ s.date.dayNumber ≤ 2932896 := by
  obtain ⟨start, stop⟩ := s.year
  have first : (⟨0, 1, 1⟩ : Date).dayNumber ≤ s.date.dayNumber := (s.valid.le_year_iff 0).mp start
  have last : ¬(⟨10000, 1, 1⟩ : Date).dayNumber ≤ s.date.dayNumber :=
    mt (s.valid.le_year_iff 10000).mpr (by omega)
  rw [Date.dayNumber_january] at first last
  omega

/-- The instant of a stamp may be shown. -/
theorem inRange_instant (s : Stamp) : (dateOf s.instant).inRange = true := by
  obtain ⟨low, high⟩ := s.dayOf_instant
  obtain ⟨first, last⟩ := s.dayNumber_bounds
  have start : Date.firstDay ≤ -719529 := by decide
  have stop : 2932897 ≤ Date.lastDay := by decide
  rw [dateOf, Date.inRange_ofDayNumber_iff]
  omega

/-- The instant of a stamp has 64 bits. -/
theorem instant_bounds (s : Stamp) : -2 ^ 63 ≤ s.instant ∧ s.instant < 2 ^ 63 := by
  obtain ⟨low, high⟩ := s.dayOf_instant
  obtain ⟨first, last⟩ := s.dayNumber_bounds
  rw [dayOf, microsPerDay] at low high
  omega

end Stamp

end Orm.Calendar
