import Orm.Number.Shortest
import Orm.Text.Cut

/-!
# `Orm.Number.Decimal` — decimal texts of binary numbers

Reading takes an optional sign, digits with an optional point and an optional exponent, or one of
the words for infinity and NaN in any case, and rounds once. Writing never uses an exponent.

## Contents
- **Reading.** `Numeral`, `readNumeral`, `Binary64.ofText`.
- **Writing.** `plainStyle`, `Binary32.plainText`, `Binary64.plainText`.
-/

namespace Orm.Number

open Orm.Text

/-! ## Reading -/

/-- An unsigned decimal numeral: `digits * 10 ^ scale`. -/
structure Numeral where
  digits : Nat
  scale : Int
  deriving DecidableEq, Repr

/-- The exponent part of a numeral: nothing, or `e` with a signed number. -/
def readExponent : List Char → Option Int
  | [] => some 0
  | c :: rest => if c = 'e' ∨ c = 'E' then readInt rest else none

/-- Digits with at most one point and at least one digit, then an exponent part. -/
def readNumeral (text : List Char) : Option Numeral :=
  let whole := text.takeWhile Char.isDigit
  let rest := text.dropWhile Char.isDigit
  let fraction := match rest with
    | '.' :: r => r.takeWhile Char.isDigit
    | _ => []
  let tail := match rest with
    | '.' :: r => r.dropWhile Char.isDigit
    | r => r
  if whole.isEmpty && fraction.isEmpty then none
  else (readExponent tail).map fun e =>
    ⟨readDigits 0 (whole ++ fraction), e - (fraction.length : Int)⟩

/-- The magnitude bits nearest to `digits * 10 ^ scale`. Numbers far outside the format are decided
by their size alone. -/
def Numeral.magnitude (n : Numeral) : Nat :=
  let size := ((decimal n.digits).length : Int) + n.scale
  if n.digits = 0 then 0
  else if 400 < size then binary64.infinity
  else if size < -400 then 0
  else if 0 ≤ n.scale then binary64.nearest (n.digits * 10 ^ n.scale.toNat) 1
  else binary64.nearest n.digits (10 ^ (-n.scale).toNat)

/-- The word that stands for a number that is not finite. -/
def readWord (text : List Char) : Option Reading :=
  let word := String.ofList (text.map Char.toLower)
  if word = "inf" ∨ word = "infinity" then some (.infinite false)
  else if word = "nan" then some .nan
  else none

/-- The 64-bit number that a text denotes. -/
def Binary64.ofText (text : List Char) : Option Binary64 :=
  let sign := readSign text
  match readWord sign.2 with
  | some .nan => some (.nan sign.1)
  | some _ => some (.infinite sign.1)
  | none => (readNumeral sign.2).map fun n => .ofMagnitude sign.1 n.magnitude

/-! ## Writing -/

/-- Positional digits at every size, a whole number without a point, a tie away from zero. -/
def plainStyle : Style := ⟨.up, none, []⟩

/-- The plain text of the number with some bits, with words for infinity and NaN. -/
def plainText (f : Format) (bits : Nat) : String :=
  match f.read bits with
  | .nan => "NaN"
  | .infinite negative => if negative then "-inf" else "inf"
  | .finite negative significand exponent =>
    String.ofList (plainStyle.write f negative significand exponent)

/-- The plain text of a 32-bit number, by the digits that tell 32-bit numbers apart. -/
def Binary32.plainText (x : Binary32) : String :=
  Number.plainText binary32 x.bits.toNat

/-- The plain text of a 64-bit number. -/
def Binary64.plainText (x : Binary64) : String :=
  Number.plainText binary64 x.bits.toNat

end Orm.Number
