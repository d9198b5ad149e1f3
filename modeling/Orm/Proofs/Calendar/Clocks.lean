import Mathlib.Data.List.TakeWhile
import Orm.Proofs.Calendar.Stamps
import Orm.Proofs.Outcome

/-!
# `Proofs.Calendar.Clocks` — texts of times of day

A clock text shows an hour, a minute and a second, each a number of one digit or two that blanks may stand
in front of, and any number of places behind a point. It stands for a number of seconds since midnight, a
fraction, and is read as the microseconds that have passed by then; nothing else is read as a time.

The second 60 is a leap second and counts as the first second of the next minute. At the end of a day there
is no next minute in the day: what is read there is a day or more.

## Contents
- **Hands.** `Hand`, `numberUpTo_text`, `exists_of_numberUpTo`.
- **Clocks.** `Clock` with its `text`, its `seconds` and its `micros`; `Clock.micros_eq`.
- **Reading.** `exists_of_fraction`, `Clock.readTime_text`, `readTime_eq_ok_iff`.
- **Range.** `Clock.IsLeapEnd`, `Clock.micros_bounds`, `Clock.micros_lt_day_iff`.
- **Writing.** `placesOf`, `Clock.ofParts` with its `text` and its `seconds`.
-/

namespace Orm.Calendar

open Text

variable {most n : Nat} {rest : List Char}

/-! ## Hands -/

/-- A number that a clock shows: one digit or two, behind blanks. -/
structure Hand (most : Nat) where
  blanks : List Char
  digits : List Char
  isBlank_blanks : ∀ c ∈ blanks, isBlank c = true
  isDigit_digits : ∀ c ∈ digits, c.isDigit = true
  some_digit : 1 ≤ digits.length
  two_digits : digits.length ≤ 2
  le_most : readDigits 0 digits ≤ most

namespace Hand

/-- The characters of a hand. -/
def text (hand : Hand most) : List Char :=
  hand.blanks ++ hand.digits

/-- The number that a hand shows. -/
def value (hand : Hand most) : Nat :=
  readDigits 0 hand.digits

theorem value_le (hand : Hand most) : hand.value ≤ most :=
  hand.le_most

/-- The blanks are passed over. -/
theorem trimStart_text (hand : Hand most) (rest : List Char) :
    trimStart (hand.text ++ rest) = hand.digits ++ rest := by
  obtain ⟨c, tail, same⟩ := List.exists_cons_of_length_pos hand.some_digit
  have digit : isBlank c = false :=
    isBlank_of_isDigit (hand.isDigit_digits c (same ▸ List.mem_cons_self))
  rw [trimStart, text, List.append_assoc, List.dropWhile_append_of_pos hand.isBlank_blanks, same]
  simp [digit]

/-- A hand is read up to something that is no digit. -/
theorem numberUpTo_text (hand : Hand most) (stop : NoDigit rest) :
    numberUpTo 0 most (hand.text ++ rest) = .ok (hand.value, rest) := by
  have digits : digitsBetween 1 2 (hand.digits ++ rest) = .ok (hand.value, rest) :=
    digitsBetween_append hand.isDigit_digits hand.some_digit hand.two_digits (.inr stop)
  have range : 0 ≤ hand.value ∧ hand.value ≤ most := ⟨Nat.zero_le _, hand.value_le⟩
  simp only [numberUpTo, trimStart_text, digits, bind, Except.bind, if_pos range]

end Hand

/-- A number that is read is shown by a hand. -/
theorem exists_of_numberUpTo {text : List Char} (h : numberUpTo 0 most text = .ok (n, rest)) :
    ∃ hand : Hand most, text = hand.text ++ rest ∧ hand.value = n := by
  obtain ⟨⟨m, after⟩, read, checked⟩ := ok_bind.mp h
  dsimp only at checked
  split at checked
  · next range =>
    cases checked
    obtain ⟨digits, same, all, low, high, rfl⟩ := exists_of_digitsBetween read
    refine ⟨⟨text.takeWhile isBlank, digits, ?_, all, low, high, range.2⟩, ?_, rfl⟩
    · intro c mem
      exact List.all_eq_true.mp List.all_takeWhile c mem
    · show text = text.takeWhile isBlank ++ digits ++ rest
      rw [List.append_assoc, ← same]
      exact List.takeWhile_append_dropWhile.symm
  · cases checked

/-! ## Clocks -/

/-- A time of day as texts write it: the second 60 is a leap second, and any number of places may stand
behind a point. -/
structure Clock where
  hour : Hand 23
  minute : Hand 59
  second : Hand 60
  places : List Char
  isDigit_places : ∀ c ∈ places, c.isDigit = true

namespace Clock

/-- The characters of a clock. -/
def text (c : Clock) : List Char :=
  c.hour.text ++ ':' :: (c.minute.text ++ ':' :: (c.second.text ++ placesText c.places))

/-- The seconds since midnight that a clock stands for. -/
def seconds (c : Clock) : ℚ :=
  c.hour.value * 3600 + c.minute.value * 60 + c.second.value +
    readDigits 0 c.places / 10 ^ c.places.length

/-- The microseconds since midnight that have passed by then. -/
def micros (c : Clock) : Int :=
  ⌊c.seconds * 1000000⌋

/-- The microseconds count whole seconds and the nanoseconds of the places. -/
theorem micros_eq (c : Clock) :
    c.micros = clockMicros c.hour.value c.minute.value c.second.value (nanosOf c.places) := by
  obtain ⟨whole, same⟩ : ∃ whole : Int,
    whole = c.hour.value * 3600 + c.minute.value * 60 + c.second.value := ⟨_, rfl⟩
  have apart : c.seconds = whole + readDigits 0 c.places / 10 ^ c.places.length := by
    rw [same, seconds]
    push_cast
    rfl
  rw [micros, apart, floor_seconds c.isDigit_places, same, clockMicros_eq c.second.value_le,
    microsPerSecond]
  push_cast
  rfl

end Clock

/-! ## Reading -/

/-- A fraction that nothing follows is a point with places, or nothing. -/
theorem exists_of_fraction {text : List Char} (h : fraction text = .ok (n, [])) :
    ∃ places, text = placesText places ∧ (∀ c ∈ places, c.isDigit = true) ∧ nanosOf places = n := by
  -- The places are found first; that they count `n` nanoseconds is then known from reading them again.
  have found (places : List Char) (same : text = placesText places)
      (all : ∀ c ∈ places, c.isDigit = true) :
      ∃ places, text = placesText places ∧ (∀ c ∈ places, c.isDigit = true) ∧ nanosOf places = n := by
    have read := fraction_placesText all noDigit_nil (by simp)
    rw [List.append_nil, ← same, h] at read
    exact ⟨places, same, all, (congrArg Prod.fst (Except.ok.inj read)).symm⟩
  unfold fraction at h
  split at h
  · next behind =>
    obtain ⟨⟨m, after⟩, read, checked⟩ := ok_bind.mp h
    obtain ⟨digits, rfl, all, low, -, -⟩ := exists_of_digitsBetween read
    have none : after.dropWhile Char.isDigit = [] :=
      congrArg Prod.snd (Except.ok.inj checked)
    have some_place : digits ++ after ≠ [] := by
      intro empty
      rw [(List.append_eq_nil_iff.mp empty).1] at low
      cases low
    apply found (digits ++ after)
    · rw [placesText, if_neg some_place]
    · intro c mem
      rcases List.mem_append.mp mem with inside | behind
      · exact all c inside
      · exact List.dropWhile_eq_nil_iff.mp none c behind
  · cases h
    apply found []
    · rfl
    · exact List.forall_mem_nil _

namespace Clock

/-- A clock is read as its microseconds. -/
theorem readTime_text (c : Clock) : readTime c.text = .ok c.micros := by
  have colon (tail : List Char) : NoDigit (':' :: tail) := noDigit_cons.mpr rfl
  have stop : NoDigit (placesText c.places) := by
    unfold placesText
    split
    · exact noDigit_nil
    · exact noDigit_cons.mpr rfl
  have places := fraction_placesText c.isDigit_places noDigit_nil (by simp)
  rw [List.append_nil] at places
  simp only [readTime, wholly, clockFields, text, Hand.numberUpTo_text _ (colon _),
    Hand.numberUpTo_text _ stop, expect_cons, places, bind, Except.bind, List.isEmpty_nil, if_true,
    micros_eq]

end Clock

/-- One given character is read off the front. -/
theorem eq_cons_of_expect {c : Char} {text : List Char} {x : Unit} (h : expect c text = .ok (x, rest)) :
    text = c :: rest := by
  cases text with
  | nil => cases h
  | cons d tail =>
    by_cases same : d = c
    · rw [expect, if_pos same] at h
      cases h
      rw [same]
    · rw [expect, if_neg same] at h
      cases h

/-- **A time is read just from the texts of clocks, and it is the time that the clock stands for.** -/
theorem readTime_eq_ok_iff {text : List Char} {us : Int} :
    readTime text = .ok us ↔ ∃ c : Clock, text = c.text ∧ c.micros = us := by
  constructor
  · intro h
    obtain ⟨⟨micros, left⟩, fields, checked⟩ := ok_bind.mp h
    dsimp only at checked
    split at checked
    · next nothing =>
      cases checked
      obtain rfl := List.isEmpty_iff.mp nothing
      -- The readers are run forwards; each one has then taken a hand, a colon or the places.
      obtain ⟨⟨hour, rest⟩, reads_hour, fields⟩ := ok_bind.mp fields
      obtain ⟨⟨_, rest⟩, reads_colon, fields⟩ := ok_bind.mp fields
      obtain ⟨⟨minute, rest⟩, reads_minute, fields⟩ := ok_bind.mp fields
      obtain ⟨⟨_, rest⟩, reads_colon', fields⟩ := ok_bind.mp fields
      obtain ⟨⟨second, rest⟩, reads_second, fields⟩ := ok_bind.mp fields
      obtain ⟨⟨nanos, rest⟩, reads_places, fields⟩ := ok_bind.mp fields
      cases fields
      obtain ⟨hours, rfl, rfl⟩ := exists_of_numberUpTo reads_hour
      obtain rfl := eq_cons_of_expect reads_colon
      obtain ⟨minutes, rfl, rfl⟩ := exists_of_numberUpTo reads_minute
      obtain rfl := eq_cons_of_expect reads_colon'
      obtain ⟨seconds, rfl, rfl⟩ := exists_of_numberUpTo reads_second
      obtain ⟨places, rfl, all, rfl⟩ := exists_of_fraction reads_places
      exact ⟨⟨hours, minutes, seconds, places, all⟩, rfl, Clock.micros_eq _⟩
    · cases checked
  · rintro ⟨c, rfl, rfl⟩
    exact c.readTime_text

/-! ## Range -/

namespace Clock

/-- A clock shows the leap second at the end of a day. -/
def IsLeapEnd (c : Clock) : Prop :=
  c.hour.value = 23 ∧ c.minute.value = 59 ∧ c.second.value = 60

instance (c : Clock) : Decidable c.IsLeapEnd :=
  inferInstanceAs (Decidable (_ ∧ _ ∧ _))

/-- A clock shows a day and a second at most. -/
theorem micros_bounds (c : Clock) : 0 ≤ c.micros ∧ c.micros < 86401000000 := by
  have ⟨hour, minute, second⟩ := And.intro c.hour.value_le (And.intro c.minute.value_le c.second.value_le)
  have nanos := nanosOf_lt c.isDigit_places
  rw [micros_eq, clockMicros_eq second, microsPerSecond]
  omega

/-- **Only the leap second at the end of a day is beyond the day.** -/
theorem micros_lt_day_iff (c : Clock) : c.micros < 86400000000 ↔ ¬c.IsLeapEnd := by
  have ⟨hour, minute, second⟩ := And.intro c.hour.value_le (And.intro c.minute.value_le c.second.value_le)
  have nanos := nanosOf_lt c.isDigit_places
  rw [micros_eq, clockMicros_eq second, microsPerSecond, IsLeapEnd]
  omega

end Clock

/-! ## Writing -/

/-- The places that show a number of microseconds: none, three or six. -/
def placesOf (micros : Nat) : List Char :=
  if micros = 0 then [] else if micros % 1000 = 0 then padded 3 (micros / 1000) else padded 6 micros

theorem isDigit_placesOf {micros : Nat} : ∀ c ∈ placesOf micros, c.isDigit = true := by
  intro c mem
  unfold placesOf at mem
  split at mem
  · cases mem
  · split at mem <;> exact isDigit_of_mem_padded mem

theorem placesText_placesOf (micros : Nat) : placesText (placesOf micros) = fractionText micros := by
  unfold placesOf fractionText placesText
  by_cases zero : micros = 0
  · rw [if_pos zero, if_pos zero, if_pos rfl]
  · rw [if_neg zero, if_neg zero]
    split <;> rw [if_neg (padded_ne_nil _ _)]

/-- The places stand for the microseconds. -/
theorem placesOf_eq {micros : Nat} (fits : micros < 10 ^ 6) :
    (readDigits 0 (placesOf micros) / 10 ^ (placesOf micros).length : ℚ) = micros / 1000000 := by
  unfold placesOf
  by_cases zero : micros = 0
  · rw [if_pos zero, zero]
    simp
  · rw [if_neg zero]
    split
    · next millis =>
      obtain ⟨k, rfl⟩ := Nat.dvd_of_mod_eq_zero millis
      rw [readDigits_padded, length_padded (by decide) (by omega),
        Nat.mul_div_cancel_left k (by decide)]
      push_cast
      ring
    · rw [readDigits_padded, length_padded (by decide) fits]
      norm_num

theorem isBlank_of_mem_nil : ∀ c ∈ [], isBlank c = true :=
  List.forall_mem_nil _

/-- A number in two digits, without blanks. -/
def Hand.ofNat (fits : n ≤ most) (short : n < 100) : Hand most where
  blanks := []
  digits := padded 2 n
  isBlank_blanks := isBlank_of_mem_nil
  isDigit_digits _ := isDigit_of_mem_padded
  some_digit := List.length_pos_iff.mpr (padded_ne_nil 2 n)
  two_digits := Nat.le_of_eq (length_padded (by decide) short)
  le_most := (readDigits_padded 2 n).symm ▸ fits

theorem Hand.value_ofNat (fits : n ≤ most) (short : n < 100) : (Hand.ofNat fits short).value = n :=
  readDigits_padded 2 n

variable {seconds micros : Nat}

/-- The clock that shows the seconds of a day and their part. -/
def Clock.ofParts (day : seconds < 86400) (micros : Nat) : Clock where
  hour := .ofNat (by omega : seconds / 3600 ≤ 23) (by omega)
  minute := .ofNat (by omega : seconds / 60 % 60 ≤ 59) (by omega)
  second := .ofNat (by omega : seconds % 60 ≤ 60) (by omega)
  places := placesOf micros
  isDigit_places := isDigit_placesOf

theorem Clock.text_ofParts (day : seconds < 86400) (micros : Nat) :
    (Clock.ofParts day micros).text = clockText seconds micros := by
  rw [← List.append_nil (clockText seconds micros), clockText_append, List.append_nil,
    ← placesText_placesOf]
  rfl

theorem Clock.seconds_ofParts (day : seconds < 86400) (fits : micros < 10 ^ 6) :
    (Clock.ofParts day micros).seconds = seconds + micros / 1000000 := by
  have whole : seconds / 3600 * 3600 + seconds / 60 % 60 * 60 + seconds % 60 = seconds := by omega
  have places := placesOf_eq fits
  rw [Clock.seconds]
  simp only [ofParts, Hand.value_ofNat, places]
  congr 1
  exact_mod_cast whole

/-- No leap second is written. -/
theorem Clock.second_ofParts_lt (day : seconds < 86400) (micros : Nat) :
    (Clock.ofParts day micros).second.value < 60 := by
  simp only [ofParts, Hand.value_ofNat]
  omega

end Orm.Calendar
