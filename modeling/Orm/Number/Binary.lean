import Orm.Number.Power

/-!
# `Orm.Number.Binary` — binary floating-point numbers as bit patterns

A `REAL` or `DOUBLE` is kept as its bits. Every operation reads the exact number
`significand * 2 ^ exponent` off the bits, computes in integers and rounds once, to the nearest
number of the format and on a tie to the even one.

## Contents
- **Formats.** `Format`, `binary32`, `binary64`.
- **Reading bits.** `Reading`, `Format.read`.
- **Rounding.** `roundHalfEven`, `Format.nearest`.
- **The two widths.** `Binary32`, `Binary64`, their conversions, `whole?`.
-/

namespace Orm.Number

/-! ## Formats -/

/-- An interchange format: one sign bit, then `exponentBits`, then `fractionBits`. -/
structure Format where
  fractionBits : Nat
  exponentBits : Nat
  deriving DecidableEq, Repr

/-- The 32-bit format. -/
def binary32 : Format := ⟨23, 8⟩

/-- The 64-bit format. -/
def binary64 : Format := ⟨52, 11⟩

namespace Format

/-- What is subtracted from the exponent field. -/
def bias (f : Format) : Nat :=
  2 ^ (f.exponentBits - 1) - 1

/-- The exponent of the last place of the smallest numbers of the format. -/
def minExponent (f : Format) : Int :=
  1 - (f.bias : Int) - (f.fractionBits : Int)

/-- The bits of positive infinity; larger bits without sign are not numbers. -/
def infinity (f : Format) : Nat :=
  (2 ^ f.exponentBits - 1) * 2 ^ f.fractionBits

/-- The weight of the sign bit. -/
def signBit (f : Format) : Nat :=
  2 ^ (f.exponentBits + f.fractionBits)

/-- The fraction bit that marks a quiet NaN. -/
def quietBit (f : Format) : Nat :=
  2 ^ (f.fractionBits - 1)

end Format

/-! ## Reading bits -/

/-- What a bit pattern stands for. -/
inductive Reading where
  | nan
  | infinite (negative : Bool)
  | finite (negative : Bool) (significand : Nat) (exponent : Int)
  deriving DecidableEq, Repr

namespace Reading

/-- The magnitude of a finite number as a quotient of natural numbers. -/
def ratio (significand : Nat) (exponent : Int) : Nat × Nat :=
  if 0 ≤ exponent then (significand * 2 ^ exponent.toNat, 1)
  else (significand, 2 ^ (-exponent).toNat)

/-- The integer that a reading stands for, if it stands for one. -/
def whole? : Reading → Option Int
  | .finite negative significand exponent =>
    let q := ratio significand exponent
    if q.1 % q.2 = 0 then
      some (if negative then -((q.1 / q.2 : Nat) : Int) else ((q.1 / q.2 : Nat) : Int))
    else none
  | _ => none

end Reading

namespace Format

/-- Reads a bit pattern of the format. -/
def read (f : Format) (bits : Nat) : Reading :=
  let negative := decide (f.signBit ≤ bits)
  let magnitude := bits % f.signBit
  let field := magnitude / 2 ^ f.fractionBits
  let fraction := magnitude % 2 ^ f.fractionBits
  if f.infinity < magnitude then .nan
  else if magnitude = f.infinity then .infinite negative
  else if field = 0 then .finite negative fraction f.minExponent
  else .finite negative (2 ^ f.fractionBits + fraction) (f.minExponent + (field : Int) - 1)

/-! ## Rounding -/

end Format

/-- The integer nearest to `num / den`; a half goes to the even neighbour. -/
def roundHalfEven (num den : Nat) : Nat :=
  let q := num / den
  let r := num % den
  if 2 * r < den then q else if den < 2 * r then q + 1 else q + q % 2

/-- A whole quotient is not rounded. -/
theorem roundHalfEven_of_mod_eq_zero {num den : Nat} (pos : 0 < den) (h : num % den = 0) :
    roundHalfEven num den = num / den := by
  simp [roundHalfEven, h, pos]

namespace Format

/-- `num / den` over `2 ^ exponent`, as a quotient. -/
def scaled (num den : Nat) (exponent : Int) : Nat × Nat :=
  if 0 ≤ exponent then (num, den * 2 ^ exponent.toNat)
  else (num * 2 ^ (-exponent).toNat, den)

/-- The exponent of the last place of the number of the format that `num / den` is rounded to. -/
def lastPlace (f : Format) (num den : Nat) : Int :=
  let guess : Int := (num.log2 : Int) - (den.log2 : Int) - (f.fractionBits : Int)
  let q := scaled num den guess
  max f.minExponent (if q.1 < q.2 * 2 ^ f.fractionBits then guess - 1 else guess)

/-- The bits, without sign, of the number of the format nearest to `num / den`. Quotients beyond
the largest number go to infinity. -/
def nearest (f : Format) (num den : Nat) : Nat :=
  if num = 0 then 0
  else
    let place := f.lastPlace num den
    let q := scaled num den place
    min f.infinity
      ((place - f.minExponent).toNat * 2 ^ f.fractionBits + roundHalfEven q.1 q.2)

/-- The bits with the sign set or not. -/
def withSign (f : Format) (negative : Bool) (magnitude : Nat) : Nat :=
  if negative then f.signBit + magnitude else magnitude

/-- The bits of a NaN of format `f` in format `g`: the fraction keeps its leading bits and is made
quiet. -/
def convertNaN (f g : Format) (bits : Nat) : Nat :=
  let fraction := bits % 2 ^ f.fractionBits
  let moved := fraction * 2 ^ g.fractionBits / 2 ^ f.fractionBits
  g.withSign (decide (f.signBit ≤ bits)) (g.infinity + (moved ||| g.quietBit))

/-- The bits in format `g` of a number of format `f`. -/
def convert (f g : Format) (bits : Nat) : Nat :=
  match f.read bits with
  | .nan => f.convertNaN g bits
  | .infinite negative => g.withSign negative g.infinity
  | .finite negative significand exponent =>
    let q := Reading.ratio significand exponent
    g.withSign negative (g.nearest q.1 q.2)

end Format

/-! ## The two widths -/

/-- A 32-bit number. -/
structure Binary32 where
  bits : UInt32
  deriving DecidableEq, Repr

/-- A 64-bit number. -/
structure Binary64 where
  bits : UInt64
  deriving DecidableEq, Repr

namespace Binary32

/-- What the bits stand for. -/
def read (x : Binary32) : Reading :=
  binary32.read x.bits.toNat

/-- The same number in 64 bits; nothing is lost. -/
def widen (x : Binary32) : Binary64 :=
  ⟨UInt64.ofNat (binary32.convert binary64 x.bits.toNat)⟩

end Binary32

namespace Binary64

/-- What the bits stand for. -/
def read (x : Binary64) : Reading :=
  binary64.read x.bits.toNat

/-- The number with the given bits, sign apart. -/
def ofMagnitude (negative : Bool) (magnitude : Nat) : Binary64 :=
  ⟨UInt64.ofNat (binary64.withSign negative magnitude)⟩

/-- The number nearest to an integer. -/
def ofInt (n : Int) : Binary64 :=
  ofMagnitude (decide (n < 0)) (binary64.nearest n.natAbs 1)

/-- Infinity of either sign. -/
def infinite (negative : Bool) : Binary64 :=
  ofMagnitude negative binary64.infinity

/-- The quiet NaN without payload, of either sign. -/
def nan (negative : Bool) : Binary64 :=
  ofMagnitude negative (binary64.infinity + binary64.quietBit)

/-- The nearest 32-bit number. -/
def narrow (x : Binary64) : Binary32 :=
  ⟨UInt32.ofNat (binary64.convert binary32 x.bits.toNat)⟩

/-- Whether the number is neither infinite nor NaN. -/
def isFinite (x : Binary64) : Bool :=
  match x.read with
  | .finite .. => true
  | _ => false

/-- Whether the bits stand for no number. -/
def isNaN (x : Binary64) : Bool :=
  x.read == .nan

/-- The integer that the number is, if it is one. -/
def whole? (x : Binary64) : Option Int :=
  x.read.whole?

end Binary64

end Orm.Number
