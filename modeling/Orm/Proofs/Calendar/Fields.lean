import Orm.Calendar.Reading
import Orm.Proofs.Text.Digits

/-!
# `Proofs.Calendar.Fields` — parts of dates and times are read as they were written

Every reader takes the text that the writer of the same part made and leaves what follows it. A number of
open length must be followed by something else than a digit; a number of two digits may be followed by
anything.

## Contents
- **Digits.** `NoDigit`, `digitsBetween_append`, `exists_of_digitsBetween`, `digitsBetween_error`.
- **Numbers.** `numberUpTo_padded`, `fixedNumber_padded`, `yearNumber_yearText`.
- **Fractions.** `nanosOf`, `fraction_point`, `fraction_fractionText`.
- **Fields.** `dateFields_text`, `clockFields_append`, `zonedFields_append`.
-/

namespace Orm.Calendar

open Text

/-! ## Digits -/

/-- A text that does not go on with a digit. -/
def NoDigit (rest : List Char) : Prop :=
  ∀ c ∈ rest.head?, c.isDigit = false

@[simp] theorem noDigit_nil : NoDigit [] := nofun

@[simp] theorem noDigit_cons {c : Char} {rest : List Char} :
    NoDigit (c :: rest) ↔ c.isDigit = false := by
  simp [NoDigit]

variable {digits rest : List Char} {least most : Nat}

theorem takeWhile_take_of_noDigit (stop : NoDigit rest) (n : Nat) :
    (rest.take n).takeWhile Char.isDigit = [] := by
  cases rest with
  | nil => rw [List.take_nil, List.takeWhile_nil]
  | cons c tail => cases n <;> simp [noDigit_cons.mp stop]

/-- Digits are read up to the largest number of them, or up to something else. -/
theorem digitsBetween_append (all : ∀ c ∈ digits, c.isDigit = true) (low : least ≤ digits.length)
    (high : digits.length ≤ most) (stop : digits.length = most ∨ NoDigit rest) :
    digitsBetween least most (digits ++ rest) = .ok (readDigits 0 digits, rest) := by
  have none : (rest.take (most - digits.length)).takeWhile Char.isDigit = [] := by
    rcases stop with full | stop
    · rw [full, Nat.sub_self, List.take_zero, List.takeWhile_nil]
    · exact takeWhile_take_of_noDigit stop _
  have taken : ((digits ++ rest).take most).takeWhile Char.isDigit = digits := by
    rw [List.take_append, List.take_of_length_le high, List.takeWhile_append_of_pos all, none,
      List.append_nil]
  rw [digitsBetween, taken, if_pos low, List.drop_left]

/-- A number that is read stands in front of what is left. -/
theorem exists_of_digitsBetween {n : Nat} {text : List Char}
    (h : digitsBetween least most text = .ok (n, rest)) :
    ∃ digits, text = digits ++ rest ∧ (∀ c ∈ digits, c.isDigit = true) ∧ least ≤ digits.length ∧
      digits.length ≤ most ∧ readDigits 0 digits = n := by
  have front : (text.take most).takeWhile Char.isDigit <+: text :=
    (List.takeWhile_prefix _).trans (List.take_prefix _ _)
  have short : ((text.take most).takeWhile Char.isDigit).length ≤ most :=
    Nat.le_trans (List.takeWhile_prefix _).length_le (List.length_take_le _ _)
  unfold digitsBetween at h
  dsimp only at h
  split at h
  · next long =>
    cases h
    refine ⟨_, (List.prefix_iff_eq_append.mp front).symm, ?_, long, short, rfl⟩
    intro c mem
    exact List.all_eq_true.mp List.all_takeWhile c mem
  · split at h <;> cases h

/-- No number starts where no digit stands. -/
theorem digitsBetween_error (some : 0 < least) (stop : NoDigit rest) :
    ∃ fault, digitsBetween least most rest = .error fault := by
  rw [digitsBetween, takeWhile_take_of_noDigit stop, List.length_nil, if_neg (Nat.not_le.mpr some)]
  split <;> exact ⟨_, rfl⟩

/-! ## Numbers -/

theorem expect_cons (c : Char) (rest : List Char) : expect c (c :: rest) = .ok ((), rest) :=
  if_pos rfl

/-- A number starts with a digit. -/
theorem exists_padded_cons (width n : Nat) (rest : List Char) :
    ∃ c tail, c.isDigit = true ∧ padded width n ++ rest = c :: tail := by
  obtain ⟨c, cs, same⟩ := List.exists_cons_of_ne_nil (padded_ne_nil width n)
  exact ⟨c, cs ++ rest, isDigit_of_mem_padded (same ▸ List.mem_cons_self), by rw [same]; rfl⟩

/-- Digits are no blanks. -/
theorem trimStart_padded (width n : Nat) (rest : List Char) :
    trimStart (padded width n ++ rest) = padded width n ++ rest := by
  obtain ⟨c, tail, digit, same⟩ := exists_padded_cons width n rest
  rw [same, trimStart_cons (isBlank_of_isDigit digit)]

/-- A number that fits a width is read with that width. -/
theorem digitsBetween_padded {width n : Nat} (pos : 0 < width) (fits : n < 10 ^ width)
    (low : least ≤ width) (rest : List Char) :
    digitsBetween least width (padded width n ++ rest) = .ok (n, rest) := by
  have full := length_padded pos fits
  rw [digitsBetween_append (fun c => isDigit_of_mem_padded) (by rwa [full])
    (Nat.le_of_eq full) (.inl full), readDigits_padded]

variable {low high n : Nat}

theorem numberUpTo_padded (range : low ≤ n ∧ n ≤ high) (fits : n < 100) (rest : List Char) :
    numberUpTo low high (padded 2 n ++ rest) = .ok (n, rest) := by
  have digits := digitsBetween_padded (by decide) fits (by decide : 1 ≤ 2) rest
  simp only [numberUpTo, trimStart_padded, digits, bind, Except.bind, if_pos range]

theorem fixedNumber_padded (range : low ≤ n ∧ n ≤ high) (fits : n < 100) (rest : List Char) :
    fixedNumber 2 low high (padded 2 n ++ rest) = .ok (n, rest) := by
  have digits := digitsBetween_padded (by decide) fits (Nat.le_refl 2) rest
  simp only [fixedNumber, digits, bind, Except.bind, if_pos range]

/-- A year is read to its last digit; without a sign it has four. -/
theorem yearNumber_yearText {year : Int} (fits : -2 ^ 31 ≤ year ∧ year < 2 ^ 31)
    (stop : NoDigit rest) : yearNumber (yearText year ++ rest) = .ok (year, rest) := by
  have signed : digitsBetween 1 (padded 4 year.natAbs ++ rest).length
      (padded 4 year.natAbs ++ rest) = .ok (year.natAbs, rest) := by
    have size := le_length_padded 4 year.natAbs
    rw [digitsBetween_append (fun c => isDigit_of_mem_padded) (by omega) (by simp) (.inr stop),
      readDigits_padded]
  unfold yearText
  split
  · next negative =>
    have start : trimStart ('-' :: padded 4 year.natAbs ++ rest) =
      '-' :: (padded 4 year.natAbs ++ rest) := trimStart_cons (by decide)
    have same : -(year.natAbs : Int) = year := by omega
    simp only [yearNumber, start, signed, Except.map, same, bind, Except.bind, if_pos fits]
  · next positive =>
    have same : (year.natAbs : Int) = year := by omega
    split
    · have start : trimStart ('+' :: padded 4 year.natAbs ++ rest) =
        '+' :: (padded 4 year.natAbs ++ rest) := trimStart_cons (by decide)
      simp only [yearNumber, start, signed, Except.map, same, bind, Except.bind, if_pos fits]
    · next small =>
      have unsigned := digitsBetween_padded (by decide) (by omega : year.natAbs < 10 ^ 4)
        (by decide : 1 ≤ 4) rest
      obtain ⟨c, tail, digit, head⟩ := exists_padded_cons 4 year.natAbs rest
      rw [head] at unsigned
      simp only [yearNumber, head, trimStart_cons (isBlank_of_isDigit digit)]
      split
      · next minus =>
        cases minus
        cases digit
      · next plus =>
        cases plus
        cases digit
      · simp only [unsigned, Except.map, same, bind, Except.bind, if_pos fits]

/-! ## Fractions -/

/-- The nanoseconds of the places behind a point; those after the ninth do not count. -/
def nanosOf (places : List Char) : Nat :=
  readDigits 0 (places.take 9) * 10 ^ (9 - (places.take 9).length)

/-- Places are read up to something else. -/
theorem fraction_point {places : List Char} (some : places ≠ [])
    (all : ∀ c ∈ places, c.isDigit = true) (stop : NoDigit rest) :
    fraction ('.' :: (places ++ rest)) = .ok (nanosOf places, rest) := by
  have nine : places ++ rest = places.take 9 ++ (places.drop 9 ++ rest) := by
    rw [← List.append_assoc, List.take_append_drop]
  have pos := List.length_pos_iff.mpr some
  have read : digitsBetween 1 9 (places ++ rest) =
      .ok (readDigits 0 (places.take 9), places.drop 9 ++ rest) := by
    rw [nine]
    refine digitsBetween_append (fun c hc => all c (List.mem_of_mem_take hc)) ?_ ?_ ?_
    · rw [List.length_take]
      omega
    · exact List.length_take_le ..
    · by_cases long : 9 ≤ places.length
      · exact .inl (List.length_take_of_le long)
      · rw [List.drop_of_length_le (by omega)]
        exact .inr stop
  have count : (places ++ rest).length - (places.drop 9 ++ rest).length = (places.take 9).length := by
    simp only [List.length_append, List.length_drop, List.length_take]
    omega
  have left : (places.drop 9 ++ rest).dropWhile Char.isDigit = rest := by
    rw [List.dropWhile_append_of_pos fun c hc => all c (List.mem_of_mem_drop hc)]
    cases rest with
    | nil => rfl
    | cons c tail => exact List.dropWhile_cons_of_neg (by simp [noDigit_cons.mp stop])
  simp only [fraction, read, bind, Except.bind, count, left, nanosOf]

/-- There is no fraction where no point stands. -/
theorem fraction_none (stop : rest.head? ≠ some '.') : fraction rest = .ok (0, rest) := by
  unfold fraction
  split
  · exact absurd rfl stop
  · rfl

/-- A fraction of none, three or six places is read to the microsecond. -/
theorem fraction_fractionText {micros : Nat} (fits : micros < 10 ^ 6) (stop : NoDigit rest)
    (point : rest.head? ≠ some '.') :
    fraction (fractionText micros ++ rest) = .ok (micros * 1000, rest) := by
  have places {width n : Nat} (pos : 0 < width) (short : width ≤ 9) (fits : n < 10 ^ width) :
      fraction ('.' :: (padded width n ++ rest)) = .ok (n * 10 ^ (9 - width), rest) := by
    have full := length_padded pos fits
    rw [fraction_point (padded_ne_nil width n) (fun c => isDigit_of_mem_padded) stop, nanosOf,
      List.take_of_length_le (by rwa [full]), readDigits_padded, full]
  unfold fractionText
  split
  · next zero => rw [List.nil_append, fraction_none point, zero]
  · split
    · next millis =>
      have back : micros / 1000 * 10 ^ (9 - 3) = micros * 1000 := by omega
      rw [List.cons_append, places (by decide) (by decide) (by omega), back]
    · exact places (by decide) (by decide) fits

/-! ## Dates -/

theorem daysInMonth_le (year : Int) (month : Nat) : daysInMonth year month ≤ 31 := by
  unfold daysInMonth
  split <;> split <;> decide

variable {date : Date}

/-- A date that exists is read as it was written, if its year fits 32 bits. -/
theorem dateFields_text (valid : date.Valid) (fits : -2 ^ 31 ≤ date.year ∧ date.year < 2 ^ 31)
    (rest : List Char) : dateFields (date.text ++ rest) = .ok (date, rest) := by
  obtain ⟨first, last, low, high⟩ := valid
  have short := daysInMonth_le date.year date.month
  have month : 1 ≤ date.month ∧ date.month ≤ 12 := ⟨first, last⟩
  have day : 1 ≤ date.day ∧ date.day ≤ 31 := ⟨low, by omega⟩
  have year (tail : List Char) : yearNumber (yearText date.year ++ '-' :: tail) =
    .ok (date.year, '-' :: tail) := yearNumber_yearText fits (noDigit_cons.mpr rfl)
  simp only [dateFields, Date.text, List.append_assoc, List.cons_append, year, expect_cons,
    numberUpTo_padded month (by omega), numberUpTo_padded day (by omega), bind, Except.bind]

/-- A date that exists and may be shown is read as its day. -/
theorem existing_eq (valid : date.Valid) (range : date.inRange = true) :
    existing date = .ok date.dayNumber :=
  if_pos ⟨valid, range⟩

/-- The years that may be shown fit 32 bits. -/
theorem year_of_inRange (range : date.inRange = true) :
    -2 ^ 31 ≤ date.year ∧ date.year < 2 ^ 31 := by
  rw [Date.inRange, Bool.and_eq_true, decide_eq_true_iff, decide_eq_true_iff, minYear, maxYear] at range
  omega

/-! ## Times -/

variable {hour minute second nanos : Nat} {tail : List Char}

/-- Hours, minutes and seconds of two digits are read as they were written. -/
theorem clockFields_append (hours : hour ≤ 23) (minutes : minute ≤ 59) (seconds : second ≤ 60)
    (reads : fraction tail = .ok (nanos, rest)) :
    clockFields (padded 2 hour ++ ':' :: (padded 2 minute ++ ':' :: (padded 2 second ++ tail))) =
      .ok (clockMicros hour minute second nanos, rest) := by
  have hours : 0 ≤ hour ∧ hour ≤ 23 := ⟨hour.zero_le, hours⟩
  have minutes : 0 ≤ minute ∧ minute ≤ 59 := ⟨minute.zero_le, minutes⟩
  have seconds : 0 ≤ second ∧ second ≤ 60 := ⟨second.zero_le, seconds⟩
  simp only [clockFields, numberUpTo_padded hours (by omega), numberUpTo_padded minutes (by omega),
    numberUpTo_padded seconds (by omega), expect_cons, reads, bind, Except.bind]

/-- Seconds count for a million microseconds each, the leap second like any other. -/
theorem clockMicros_eq (seconds : second ≤ 60) : clockMicros hour minute second nanos =
    ((hour * 3600 + minute * 60 + second : Nat) : Int) * microsPerSecond + (nanos / 1000 : Nat) := by
  simp only [clockMicros, microsPerSecond]
  split <;> omega

/-- The parts of a clock text, with what follows it. -/
theorem clockText_append (seconds micros : Nat) (rest : List Char) :
    clockText seconds micros ++ rest = padded 2 (seconds / 3600) ++ ':' ::
      (padded 2 (seconds / 60 % 60) ++ ':' ::
        (padded 2 (seconds % 60) ++ (fractionText micros ++ rest))) := by
  simp only [clockText, List.append_assoc, List.cons_append]

/-- Hours, minutes and seconds count for the seconds they were made of. -/
theorem clockMicros_parts (seconds micros : Nat) :
    clockMicros (seconds / 3600) (seconds / 60 % 60) (seconds % 60) (micros * 1000) =
      seconds * microsPerSecond + micros := by
  have whole : seconds / 3600 * 3600 + seconds / 60 % 60 * 60 + seconds % 60 = seconds := by omega
  have part : micros * 1000 / 1000 = micros := Nat.mul_div_cancel _ (by decide)
  rw [clockMicros_eq (by omega), whole, part]

/-- The seconds of a day and a fraction are read as they were written. -/
theorem clockFields_clockText {seconds micros : Nat} (day : seconds < 86400) (fits : micros < 10 ^ 6)
    (stop : NoDigit rest) (point : rest.head? ≠ some '.') :
    clockFields (clockText seconds micros ++ rest) =
      .ok (seconds * microsPerSecond + micros, rest) := by
  rw [clockText_append, clockFields_append (by omega) (by omega) (by omega)
    (fraction_fractionText fits stop point), clockMicros_parts]

/-! ## Fields with a zone -/

/-- Fields of fixed width are read as they were written, up to the zone. -/
theorem zonedFields_append {mark : Char} (valid : date.Valid)
    (year : 0 ≤ date.year ∧ date.year ≤ 9999) (marked : mark = 'T' ∨ mark = 't' ∨ mark = ' ')
    (hours : hour ≤ 23) (minutes : minute ≤ 59) (seconds : second ≤ 60)
    (reads : fraction tail = .ok (nanos, rest)) :
    zonedFields (date.text ++ mark ::
        (padded 2 hour ++ ':' :: (padded 2 minute ++ ':' :: (padded 2 second ++ tail)))) =
      (zone rest).map fun p => ((date, clockMicros hour minute second nanos, p.1), p.2) := by
  obtain ⟨first, last, low, high⟩ := valid
  have short := daysInMonth_le date.year date.month
  have month : 1 ≤ date.month ∧ date.month ≤ 12 := ⟨first, last⟩
  have day : 1 ≤ date.day ∧ date.day ≤ 31 := ⟨low, by omega⟩
  have hours : 0 ≤ hour ∧ hour ≤ 23 := ⟨hour.zero_le, hours⟩
  have minutes : 0 ≤ minute ∧ minute ≤ 59 := ⟨minute.zero_le, minutes⟩
  have seconds : 0 ≤ second ∧ second ≤ 60 := ⟨second.zero_le, seconds⟩
  have unsigned : yearText date.year = padded 4 date.year.natAbs := by
    rw [yearText, if_neg (by omega), if_neg (by omega)]
  have four (after : List Char) := digitsBetween_padded (by decide)
    (by omega : date.year.natAbs < 10 ^ 4) (Nat.le_refl 4) after
  have same : ((date.year.natAbs : Nat) : Int) = date.year := by omega
  have between (after : List Char) : dateEnd (mark :: after) = .ok ((), after) := if_pos marked
  simp only [zonedFields, Date.text, unsigned, List.append_assoc, List.cons_append, four, expect_cons,
    fixedNumber_padded month (by omega), fixedNumber_padded day (by omega),
    fixedNumber_padded hours (by omega), fixedNumber_padded minutes (by omega),
    fixedNumber_padded seconds (by omega), between, reads, same, bind, Except.bind]
  cases zone rest <;> rfl

/-- A year with a sign is no year of fixed width. -/
theorem zonedFields_signed (year : ¬(0 ≤ date.year ∧ date.year ≤ 9999)) (rest : List Char) :
    ∃ fault, zonedFields (date.text ++ rest) = .error fault := by
  have signed : NoDigit (date.text ++ rest) := by
    unfold Date.text yearText
    split
    · exact noDigit_cons.mpr rfl
    · rw [if_pos (by omega)]
      exact noDigit_cons.mpr rfl
  obtain ⟨fault, none⟩ : ∃ fault, digitsBetween 4 4 (date.text ++ rest) = .error fault :=
    digitsBetween_error (by decide) signed
  exact ⟨fault, by simp only [zonedFields, none, bind, Except.bind]⟩

end Orm.Calendar
