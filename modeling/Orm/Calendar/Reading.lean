import Orm.Calendar.Writing
import Orm.Text.Blank

/-!
# `Orm.Calendar.Reading` — dates and times from text

The lenient form (`year-month-day`, `hour:minute:second` and an optional fraction) skips blanks in
front of a number, takes up to two digits for everything but the year, and allows a signed year of
any length. The strict form is the one with a zone: fixed widths, `T` and `Z` in either case. Second
60 is a leap second: it counts as the second 59 and a full second more.

## Contents
- **Faults.** `Fault`, `Fault.message`.
- **Pieces.** `digitsBetween`, `expect`, `numberUpTo`, `yearNumber`, `fraction`.
- **Lenient texts.** `dateFields`, `clockFields`, `readDate`, `readTime`, `readLocal?`.
- **Strict texts.** `zone`, `zonedFields`, `readZoned?`.
- **Instants.** `readInstant?`: with a zone, else with a blank, else with `T`.
-/

namespace Orm.Calendar

open Text

/-! ## Faults -/

/-- What is wrong with a text. -/
inductive Fault where
  | short
  | invalid
  | trailing
  | range
  deriving DecidableEq, Repr

/-- The fault in words. -/
def Fault.message : Fault → String
  | .short => "premature end of input"
  | .invalid => "input contains invalid characters"
  | .trailing => "trailing input"
  | .range => "input is out of range"

/-- A reader takes something off the start of a text. -/
abbrev Reader (α : Type) := List Char → Except Fault (α × List Char)

/-! ## Pieces -/

/-- A number of at least `least` and at most `most` digits. -/
def digitsBetween (least most : Nat) : Reader Nat := fun text =>
  let digits := (text.take most).takeWhile Char.isDigit
  if least ≤ digits.length then .ok (readDigits 0 digits, text.drop digits.length)
  else if text.length < least then .error .short
  else .error .invalid

/-- One given character. -/
def expect (c : Char) : Reader Unit
  | [] => .error .short
  | d :: rest => if d = c then .ok ((), rest) else .error .invalid

/-- A number between `low` and `high` of one or two digits, after blanks. -/
def numberUpTo (low high : Nat) : Reader Nat := fun text => do
  let (n, rest) ← digitsBetween 1 2 (trimStart text)
  if low ≤ n ∧ n ≤ high then .ok (n, rest) else .error .range

/-- A signed number of any length that fits 32 bits, or one of up to four digits. -/
def yearNumber : Reader Int := fun text => do
  let text := trimStart text
  let (year, rest) ← match text with
    | '-' :: digits => (digitsBetween 1 digits.length digits).map fun p => (-(p.1 : Int), p.2)
    | '+' :: digits => (digitsBetween 1 digits.length digits).map fun p => ((p.1 : Int), p.2)
    | digits => (digitsBetween 1 4 digits).map fun p => ((p.1 : Int), p.2)
  if -2 ^ 31 ≤ year ∧ year < 2 ^ 31 then .ok (year, rest) else .error .range

/-- The nanoseconds of a fraction, if a point stands here; digits after the ninth are dropped. -/
def fraction : Reader Nat
  | '.' :: rest => do
    let (n, after) ← digitsBetween 1 9 rest
    .ok (n * 10 ^ (9 - (rest.length - after.length)), after.dropWhile Char.isDigit)
  | text => .ok (0, text)

/-! ## Lenient texts -/

/-- Year, month and day; whether the day exists is not looked at. -/
def dateFields : Reader Date := fun text => do
  let (year, rest) ← yearNumber text
  let ((), rest) ← expect '-' rest
  let (month, rest) ← numberUpTo 1 12 rest
  let ((), rest) ← expect '-' rest
  let (day, rest) ← numberUpTo 1 31 rest
  .ok (⟨year, month, day⟩, rest)

/-- The microseconds since midnight of a clock reading. -/
def clockMicros (hour minute second nanos : Nat) : Int :=
  let leap := if second = 60 then 1000000000 else 0
  ((hour * 3600 + minute * 60 + min second 59 : Nat) : Int) * microsPerSecond +
    (((nanos + leap) / 1000 : Nat) : Int)

/-- Hour, minute, second and fraction, in microseconds since midnight. -/
def clockFields : Reader Int := fun text => do
  let (hour, rest) ← numberUpTo 0 23 text
  let ((), rest) ← expect ':' rest
  let (minute, rest) ← numberUpTo 0 59 rest
  let ((), rest) ← expect ':' rest
  let (second, rest) ← numberUpTo 0 60 rest
  let (nanos, rest) ← fraction rest
  .ok (clockMicros hour minute second nanos, rest)

/-- Everything a reader takes, with nothing left over. -/
def wholly {α : Type} (reader : Reader α) (text : List Char) : Except Fault α := do
  let (a, rest) ← reader text
  if rest.isEmpty then .ok a else .error .trailing

/-- The day number of a date, if the date exists and may be shown. -/
def existing (date : Date) : Except Fault Int :=
  if date.Valid ∧ date.inRange then .ok date.dayNumber else .error .range

/-- The day number of a text. -/
def readDate (text : List Char) : Except Fault Int := do
  let date ← wholly dateFields text
  existing date

/-- The microseconds since midnight of a text. -/
def readTime (text : List Char) : Except Fault Int :=
  wholly clockFields text

/-- Date and time with `between` read in the middle. -/
def localFields (between : List Char → Except Fault (List Char)) : Reader (Date × Int) :=
  fun text => do
    let (date, rest) ← dateFields text
    let rest ← between rest
    let (micros, rest) ← clockFields rest
    .ok ((date, micros), rest)

/-- The instant of a text without a zone, taken as universal time. -/
def readLocal? (between : List Char → Except Fault (List Char)) (text : List Char) : Option Int :=
  match wholly (localFields between) text with
  | .ok (date, micros) =>
    match existing date with
    | .ok day => some (day * microsPerDay + micros)
    | .error _ => none
  | .error _ => none

/-! ## Strict texts -/

/-- A number of exactly `width` digits between `low` and `high`. -/
def fixedNumber (width low high : Nat) (text : List Char) : Except Fault (Nat × List Char) := do
  let (n, rest) ← digitsBetween width width text
  if low ≤ n ∧ n ≤ high then .ok (n, rest) else .error .range

/-- Hours and minutes of a zone after its sign, in minutes; less than a day. -/
def zoneMinutes : Reader Nat := fun text => do
  let (hours, rest) ← digitsBetween 2 2 text
  let ((), rest) ← expect ':' rest
  let (minutes, rest) ← fixedNumber 2 0 59 rest
  if hours ≤ 23 then .ok (hours * 60 + minutes, rest) else .error .range

/-- A zone: `Z` for universal time, or a signed distance from it in minutes. -/
def zone : Reader Int
  | [] => .error .short
  | c :: rest =>
    if c = 'Z' ∨ c = 'z' then .ok (0, rest)
    else if c = '+' then (zoneMinutes rest).map fun p => ((p.1 : Int), p.2)
    else if c = '-' ∨ c = '\u2212' then (zoneMinutes rest).map fun p => (-(p.1 : Int), p.2)
    else .error .invalid

/-- The character between date and time. -/
def dateEnd : Reader Unit
  | [] => .error .short
  | c :: rest => if c = 'T' ∨ c = 't' ∨ c = ' ' then .ok ((), rest) else .error .invalid

/-- Date, time of day in microseconds and zone in minutes, all of fixed width. -/
def zonedFields : Reader (Date × Int × Int) := fun text => do
  let (year, rest) ← digitsBetween 4 4 text
  let ((), rest) ← expect '-' rest
  let (month, rest) ← fixedNumber 2 1 12 rest
  let ((), rest) ← expect '-' rest
  let (day, rest) ← fixedNumber 2 1 31 rest
  let ((), rest) ← dateEnd rest
  let (hour, rest) ← fixedNumber 2 0 23 rest
  let ((), rest) ← expect ':' rest
  let (minute, rest) ← fixedNumber 2 0 59 rest
  let ((), rest) ← expect ':' rest
  let (second, rest) ← fixedNumber 2 0 60 rest
  let (nanos, rest) ← fraction rest
  let (offset, rest) ← zone rest
  .ok ((⟨year, month, day⟩, clockMicros hour minute second nanos, offset), rest)

/-- Microseconds in a minute. -/
def microsPerMinute : Int := 60000000

/-- The instant of a text with a zone. -/
def readZoned? (text : List Char) : Option Int :=
  match wholly zonedFields text with
  | .ok (date, micros, offset) =>
    match existing date with
    | .ok day => some (day * microsPerDay + micros - offset * microsPerMinute)
    | .error _ => none
  | .error _ => none

/-! ## Instants -/

/-- Blanks, or nothing, between date and time. -/
def blanksBetween (text : List Char) : Except Fault (List Char) :=
  .ok (trimStart text)

/-- A capital `T` between date and time. -/
def markBetween (text : List Char) : Except Fault (List Char) :=
  (expect 'T' text).map (·.2)

/-- The instant of a text: with a zone, or else without one. -/
def readInstant? (text : List Char) : Option Int :=
  (readZoned? text).orElse fun _ =>
    (readLocal? blanksBetween text).orElse fun _ => readLocal? markBetween text

end Orm.Calendar
