import Orm.Number.Binary
import Orm.Text.Digits

/-!
# `Orm.Number.Shortest` — the shortest decimal text of a binary number

The reals that round to a finite binary number form an interval around it. Its shortest text is the
first grid of decimals (one digit, two digits, …) that has a point in that interval; of two points
on that grid the nearer one is taken, and a tie is a decision of the style.

## Contents
- **Digits.** `Rounding` (the interval in integers), `shortestDigits`.
- **Styles.** `Style`, `Style.write`: which exponents are positional and what a whole number ends
  with.
-/

namespace Orm.Number

open Orm.Text

/-! ## Digits -/

/-- Which of two decimals at equal distance is taken. -/
inductive Tie where
  | even
  | up
  deriving DecidableEq, Repr

/-- A number and the ends of the interval that rounds to it, as multiples of `unitNum / unitDen`.
The ends belong to the interval when `closed`. -/
structure Rounding where
  low : Nat
  value : Nat
  high : Nat
  unitNum : Nat
  unitDen : Nat
  closed : Bool

/-- The interval of the number `significand * 2 ^ exponent`, in quarters of its last place. Below a
power of two the neighbour is at half the distance. -/
def Format.rounding (f : Format) (significand : Nat) (exponent : Int) : Rounding :=
  let quarter := exponent - 2
  { low :=
      if significand = 2 ^ f.fractionBits ∧ f.minExponent < exponent then 4 * significand - 1
      else 4 * significand - 2
    value := 4 * significand
    high := 4 * significand + 2
    unitNum := if 0 ≤ quarter then 2 ^ quarter.toNat else 1
    unitDen := if 0 ≤ quarter then 1 else 2 ^ (-quarter).toNat
    closed := significand % 2 == 0 }

/-- How often `num / den` can be multiplied by ten and stay below one. -/
def leadingZeros (num den : Nat) : Nat → Nat
  | 0 => 0
  | fuel + 1 => if den ≤ num * 10 then 0 else leadingZeros (num * 10) den fuel + 1

/-- The position of the decimal point in front of the first digit: the number lies between
`10 ^ (p - 1)` and `10 ^ p`. -/
def Rounding.point (r : Rounding) : Int :=
  let num := r.value * r.unitNum
  let whole := num / r.unitDen
  if 0 < whole then ((decimal whole).length : Int)
  else -(leadingZeros num r.unitDen (r.unitDen.log2 + 1) : Int)

/-- The point of the grid `10 ^ scale` that is taken for the number, if one lies in the interval. -/
def Rounding.onGrid (r : Rounding) (tie : Tie) (scale : Int) : Option Nat :=
  let up := if scale < 0 then 10 ^ (-scale).toNat else 1
  let den := r.unitDen * if 0 < scale then 10 ^ scale.toNat else 1
  let place (x : Nat) : Nat := x * r.unitNum * up
  let below := place r.value / den
  let rest := place r.value % den
  let inside (c : Nat) : Bool :=
    if r.closed then place r.low ≤ c * den && c * den ≤ place r.high
    else place r.low < c * den && c * den < place r.high
  let upper := below + 1
  if inside below then
    if inside upper then
      if 2 * rest < den then some below
      else if den < 2 * rest then some upper
      else match tie with
        | .even => some (below + below % 2)
        | .up => some upper
    else some below
  else if inside upper then some upper
  else none

/-- The first grid of `count`, `count + 1`, … digits with a point in the interval: the point and
its scale. -/
def Rounding.search (r : Rounding) (tie : Tie) (point : Int) : Nat → Nat → Nat × Int
  | 0, count => (0, point - count)
  | fuel + 1, count =>
    match r.onGrid tie (point - count) with
    | some digits => (digits, point - count)
    | none => r.search tie point fuel (count + 1)

/-- A number without its trailing zeros, and the scale that makes up for them. -/
def stripZeros : Nat → Nat × Int → Nat × Int
  | 0, d => d
  | fuel + 1, (digits, scale) =>
    if digits % 10 = 0 then stripZeros fuel (digits / 10, scale + 1) else (digits, scale)

/-- The shortest decimal `digits * 10 ^ scale` of a finite number that is not zero. Seventeen
digits tell all 64-bit numbers apart. -/
def Format.shortestDigits (f : Format) (tie : Tie) (significand : Nat) (exponent : Int) :
    Nat × Int :=
  let r := f.rounding significand exponent
  stripZeros 17 (r.search tie r.point 17 1)

/-! ## Styles -/

/-- How the digits of a number are laid out. -/
structure Style where
  /-- Which of two equally near decimals is written. -/
  tie : Tie
  /-- The exponents of the first digit that are written positionally; all of them if absent. -/
  positional : Option (Int × Int)
  /-- What follows a whole number. -/
  wholeEnd : List Char
  deriving DecidableEq, Repr

namespace Style

/-- Whether a number whose first digit has this exponent is written positionally. -/
def isPositional (style : Style) (exponent : Int) : Bool :=
  match style.positional with
  | none => true
  | some (low, high) => low ≤ exponent && exponent ≤ high

/-- The digits around the decimal point, which stands `point` places after their start. -/
def layPositional (style : Style) (digits : List Char) (point : Int) : List Char :=
  let size := (digits.length : Int)
  if point ≤ 0 then '0' :: '.' :: List.replicate (-point).toNat '0' ++ digits
  else if size ≤ point then digits ++ List.replicate (point - size).toNat '0' ++ style.wholeEnd
  else digits.take point.toNat ++ '.' :: digits.drop point.toNat

/-- One digit, the others after a point, and the signed exponent. -/
def layExponent (digits : List Char) (exponent : Int) : List Char :=
  digits.take 1 ++ (if digits.length = 1 then [] else '.' :: digits.drop 1) ++
    'e' :: (if exponent < 0 then '-' else '+') :: decimal exponent.natAbs

/-- The text of the finite number `significand * 2 ^ exponent` of a format. -/
def write (style : Style) (f : Format) (negative : Bool) (significand : Nat) (exponent : Int) :
    List Char :=
  let sign := if negative then ['-'] else []
  if significand = 0 then sign ++ '0' :: style.wholeEnd
  else
    let d := f.shortestDigits style.tie significand exponent
    let digits := decimal d.1
    let point := (digits.length : Int) + d.2
    if style.isPositional (point - 1) then sign ++ style.layPositional digits point
    else sign ++ layExponent digits (point - 1)

end Style

end Orm.Number
