/-!
# `Orm.Text.Digits` — numbers written in ASCII digits

Reading takes ASCII digits only: no blanks, no separators and no other script's digits.

## Contents
- **Reading.** `readNat`, `readInt` (one optional sign), `readWithin` (a range).
- **Writing.** `decimal`, `padded`, `hexByte`.
- **Hexadecimal digits.** `hexValue?`, `readHex?`, `dropPlus`, `readByte?`.
-/

namespace Orm.Text

/-! ## Reading -/

/-- The value of an ASCII decimal digit. -/
def digitValue (c : Char) : Nat :=
  c.toNat - 48

/-- The value of digits read after `value`. -/
def readDigits (value : Nat) (digits : List Char) : Nat :=
  digits.foldl (fun acc c => acc * 10 + digitValue c) value

/-- A natural number: one digit or more and nothing else. -/
def readNat (text : List Char) : Option Nat :=
  if !text.isEmpty && text.all Char.isDigit then some (readDigits 0 text) else none

/-- The sign in front of a number, `true` for minus, and what follows it. -/
def readSign : List Char → Bool × List Char
  | '-' :: rest => (true, rest)
  | '+' :: rest => (false, rest)
  | text => (false, text)

/-- An integer: at most one sign, then a natural number. -/
def readInt (text : List Char) : Option Int :=
  (readNat (readSign text).2).map fun n => if (readSign text).1 then -(n : Int) else n

/-- An integer between `low` and `high`. -/
def readWithin (low high : Int) (text : List Char) : Option Int :=
  (readInt text).filter fun n => low ≤ n && n ≤ high

/-- What `readWithin` reads is in range and what `readInt` reads. -/
theorem readWithin_eq_some_iff {low high n : Int} {text : List Char} :
    readWithin low high text = some n ↔ readInt text = some n ∧ low ≤ n ∧ n ≤ high := by
  simp [readWithin, Option.filter_eq_some_iff]

/-! ## Writing -/

/-- The decimal digits of a natural number, without leading zeros. -/
def decimal (n : Nat) : List Char :=
  Nat.toDigits 10 n

/-- The decimal digits of an integer, with a minus when it is negative. -/
def signed (n : Int) : List Char :=
  if n < 0 then '-' :: decimal n.natAbs else decimal n.natAbs

/-- The decimal digits of `n` with zeros in front up to `width`. -/
def padded (width n : Nat) : List Char :=
  List.replicate (width - (decimal n).length) '0' ++ decimal n

/-- A byte as two lower-case hexadecimal digits. -/
def hexByte (byte : UInt8) : List Char :=
  [Nat.digitChar (byte.toNat / 16), Nat.digitChar (byte.toNat % 16)]

/-! ## Hexadecimal digits -/

/-- The value of a hexadecimal digit of either case. -/
def hexValue? (c : Char) : Option Nat :=
  if '0' ≤ c ∧ c ≤ '9' then some (c.toNat - 48)
  else if 'a' ≤ c ∧ c ≤ 'f' then some (c.toNat - 87)
  else if 'A' ≤ c ∧ c ≤ 'F' then some (c.toNat - 55)
  else none

/-- The value of hexadecimal digits read after `value`. -/
def readHex? (value : Nat) : List Char → Option Nat
  | [] => some value
  | c :: rest => do
    let digit ← hexValue? c
    readHex? (value * 16 + digit) rest

/-- What follows a plus in front, or all of the text. -/
def dropPlus : List Char → List Char
  | '+' :: rest => rest
  | text => text

/-- A byte in hexadecimal: one digit or more, and a plus may stand in front of them. -/
def readByte? (text : List Char) : Option UInt8 :=
  if (dropPlus text).isEmpty then none
  else ((readHex? 0 (dropPlus text)).filter (· < 256)).map UInt8.ofNat

end Orm.Text
