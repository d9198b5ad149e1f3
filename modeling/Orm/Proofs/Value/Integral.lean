import Orm.Proofs.Number.Exact
import Orm.Proofs.Text.Spelling
import Orm.Proofs.Value.Typing

/-!
# `Proofs.Value.Integral` — integers from values of every kind

A truth value, an integer, a text in digits and a float each stand for one number or for none. A value is
made to fit an integral type just if it stands for an integer in the range of the type, and then the
result holds that integer. There is one exception: a float that is an integer beyond 64 bits is first
brought to the nearest one that has 64 bits, and fits the widest type as that one.

## Contents
- **The number of a value.** `Value.Denotes`, `Value.denotes_unique`.
- **Ranges.** `ScalarType.InRange`, `holds_of_fit?`, `fit?_of_holds`, `inRange_of_integer?`.
- **Saturation.** `saturate_eq_self`, `inRange_saturate_iff`.
- **Integers.** `wholeNumber_digits_iff`, `wholeNumber_eq_ok_iff`, `coerceIntegral_eq_ok_iff`,
  `coerce_eq_ok_iff`.
- **Main result.** `Value.coerce_integral_iff`.
-/

namespace Orm

open Text Number

/-! ## The number of a value -/

namespace Value

/-- A value stands for a number. -/
def Denotes (value : Value) (q : ℚ) : Prop :=
  match value with
  | .bool b => q = if b then 1 else 0
  | .tinyInt n => q = n.toInt
  | .smallInt n => q = n.toInt
  | .int n => q = n.toInt
  | .bigInt n => q = n.toInt
  | .decimal s | .text s => ∃ spelling : Spelling, trim s.toList = spelling.text ∧ spelling.number = q
  | .real x => x.rational? = some q
  | .double x => x.rational? = some q
  | _ => False

/-- Whether a value is a float. -/
def isFloat : Value → Bool
  | .real _ | .double _ => true
  | _ => false

/-- A value stands for one number at most. -/
theorem denotes_unique {value : Value} {p q : ℚ} (hp : value.Denotes p) (hq : value.Denotes q) :
    p = q := by
  cases value with
  | bool | tinyInt | smallInt | int | bigInt => exact hp.trans hq.symm
  | decimal s | text s =>
    obtain ⟨a, spelled, rfl⟩ := hp
    obtain ⟨b, spelled', rfl⟩ := hq
    exact Spelling.number_congr (spelled.symm.trans spelled')
  | real x | double x => exact Option.some.inj (Eq.trans (Eq.symm hp) hq)
  | _ => exact hp.elim

end Value

/-! ## Ranges -/

variable {type : ScalarType} {value result : Value} {n : Int}

namespace ScalarType

/-- The number of bits of an integral type. -/
def bits : ScalarType → Nat
  | .tinyInt => 8
  | .smallInt => 16
  | .int => 32
  | _ => 64

/-- The smallest integer of an integral type. -/
def least (type : ScalarType) : Int := -2 ^ (type.bits - 1)

/-- The largest integer of an integral type. -/
def greatest (type : ScalarType) : Int := 2 ^ (type.bits - 1) - 1

/-- An integer is in the range of an integral type. -/
def InRange (type : ScalarType) (n : Int) : Prop :=
  type.least ≤ n ∧ n ≤ type.greatest

instance (type : ScalarType) (n : Int) : Decidable (type.InRange n) :=
  inferInstanceAs (Decidable (_ ∧ _))

theorem inRange_iff : type.InRange n ↔ -2 ^ (type.bits - 1) ≤ n ∧ n < 2 ^ (type.bits - 1) :=
  and_congr_right fun _ => Int.le_sub_one_iff

/-- What fits an integral type is in its range, and the value holds it. -/
theorem holds_of_fit? (integral : type.isIntegral = true) (fits : type.fit? n = some result) :
    type.InRange n ∧ result.integer? = some n := by
  cases type with
  | tinyInt =>
    obtain ⟨range, same⟩ := Option.ite_none_right_eq_some.mp fits
    cases same
    exact ⟨inRange_iff.mpr range, congrArg some (Int8.toInt_ofInt_of_le range.1 range.2)⟩
  | smallInt =>
    obtain ⟨range, same⟩ := Option.ite_none_right_eq_some.mp fits
    cases same
    exact ⟨inRange_iff.mpr range, congrArg some (Int16.toInt_ofInt_of_le range.1 range.2)⟩
  | int =>
    obtain ⟨range, same⟩ := Option.ite_none_right_eq_some.mp fits
    cases same
    exact ⟨inRange_iff.mpr range, congrArg some (Int32.toInt_ofInt_of_le range.1 range.2)⟩
  | bigInt =>
    obtain ⟨range, same⟩ := Option.ite_none_right_eq_some.mp fits
    cases same
    exact ⟨range, congrArg some (Int64.toInt_ofInt_of_le range.1 (Int.le_sub_one_iff.mp range.2))⟩
  | _ => cases integral

/-- The values of an integral type fit it. -/
theorem fit?_of_holds (of : result.type? = some type) (holds : result.integer? = some n) :
    type.fit? n = some result := by
  cases result with
  | tinyInt v =>
    cases of
    cases holds
    exact (if_pos ⟨v.le_toInt, v.toInt_lt⟩).trans (by rw [Int8.ofInt_toInt])
  | smallInt v =>
    cases of
    cases holds
    exact (if_pos ⟨v.le_toInt, v.toInt_lt⟩).trans (by rw [Int16.ofInt_toInt])
  | int v =>
    cases of
    cases holds
    exact (if_pos ⟨v.le_toInt, v.toInt_lt⟩).trans (by rw [Int32.ofInt_toInt])
  | bigInt v =>
    cases of
    cases holds
    exact (if_pos ⟨v.le_toInt, Int.le_sub_one_iff.mpr v.toInt_lt⟩).trans (by rw [Int64.ofInt_toInt])
  | _ => cases holds

/-- The integral type of most bits takes what the others take. -/
theorem inRange_bigInt (integral : type.isIntegral = true) (range : type.InRange n) :
    bigInt.InRange n := by
  have low : bigInt.least ≤ type.least := by
    cases type with
    | tinyInt | smallInt | int | bigInt => decide
    | _ => cases integral
  have high : type.greatest ≤ bigInt.greatest := by
    cases type with
    | tinyInt | smallInt | int | bigInt => decide
    | _ => cases integral
  exact ⟨low.trans range.1, range.2.trans high⟩

end ScalarType

/-- What an integer of some width holds has 64 bits. -/
theorem inRange_of_integer? (value : Value) (holds : value.integer? = some n) : ScalarType.bigInt.InRange n := by
  cases value with
  | tinyInt | smallInt | int | bigInt =>
    refine ScalarType.inRange_bigInt ?_ (ScalarType.holds_of_fit? ?_ (ScalarType.fit?_of_holds rfl holds)).1
      <;> rfl
  | _ => cases holds

/-! ## Saturation -/

theorem inRange_saturate (n : Int) : ScalarType.bigInt.InRange (saturate n) := by
  have least : ScalarType.bigInt.least = minInteger := rfl
  have greatest : ScalarType.bigInt.greatest = maxInteger := rfl
  have order : minInteger ≤ maxInteger := by decide
  rw [ScalarType.InRange, saturate, least, greatest]
  omega

/-- An integer of 64 bits stays as it is. -/
theorem saturate_eq_self (range : ScalarType.bigInt.InRange n) : saturate n = n := by
  have low : minInteger ≤ n := range.1
  have high : n ≤ maxInteger := range.2
  rw [saturate]
  omega

/-- Bringing an integer to 64 bits puts it into the range of the widest type only. -/
theorem inRange_saturate_iff (integral : type.isIntegral = true) :
    type.InRange (saturate n) ↔ type.InRange n ∨ type = .bigInt := by
  constructor
  · intro range
    by_cases widest : type = .bigInt
    · exact .inr widest
    · have low : minInteger < type.least := by
        cases type with
        | tinyInt | smallInt | int => decide
        | bigInt => exact absurd rfl widest
        | _ => cases integral
      have high : type.greatest < maxInteger := by
        cases type with
        | tinyInt | smallInt | int => decide
        | bigInt => exact absurd rfl widest
        | _ => cases integral
      left
      unfold ScalarType.InRange saturate at *
      omega
  · rintro (range | rfl)
    · rwa [saturate_eq_self (ScalarType.inRange_bigInt integral range)]
    · exact inRange_saturate n

/-! ## Integers -/

variable {m : Int}

/-- Digits are taken for the integer that is read from them. -/
theorem wholeNumber_digits_iff {s : String} (digits : value = .decimal s ∨ value = .text s) :
    wholeNumber type value = .ok m ↔ readIntegral? s = some m := by
  rcases digits with rfl | rfl <;> simp only [wholeNumber] <;> cases readIntegral? s <;> simp

/-- A float is taken for the integer that it is, brought to 64 bits. -/
theorem wholeNumber_double_iff {x : Binary64} :
    wholeNumber type (.double x) = .ok m ↔ ∃ n, x.whole? = some n ∧ saturate n = m := by
  simp only [wholeNumber]
  cases x.whole? <;> simp

theorem wholeNumber_real_iff {x : Binary32} :
    wholeNumber type (.real x) = .ok m ↔ ∃ n, x.widen.whole? = some n ∧ saturate n = m := by
  simp only [wholeNumber]
  cases x.widen.whole? <;> simp

/-- The integer that a value is taken for: the one that it stands for, brought to 64 bits. Only a float
stands for one that has more. -/
theorem wholeNumber_eq_ok_iff :
    wholeNumber type value = .ok m ↔ ∃ n : Int, value.Denotes n ∧ saturate n = m ∧
      (value.isFloat = true ∨ ScalarType.bigInt.InRange n) := by
  have exactly {k : Int} (range : ScalarType.bigInt.InRange k) :
      (Except.ok k : Except Rejection Int) = .ok m ↔ ∃ n : Int, (n : ℚ) = k ∧ saturate n = m ∧
        (false = true ∨ ScalarType.bigInt.InRange n) := by
    rw [Except.ok.injEq]
    constructor
    · rintro rfl
      exact ⟨k, rfl, saturate_eq_self range, .inr range⟩
    · rintro ⟨n, same, rfl, -⟩
      rw [Int.cast_inj.mp same, saturate_eq_self range]
  have digits {s : String} (digits : value = .decimal s ∨ value = .text s) :
      wholeNumber type value = .ok m ↔
        ∃ n : Int, (∃ spelling : Spelling, trim s.toList = spelling.text ∧ spelling.number = n) ∧
          saturate n = m ∧ (false = true ∨ ScalarType.bigInt.InRange n) := by
    rw [wholeNumber_digits_iff digits, readIntegral?_eq_some_iff]
    constructor
    · rintro ⟨spelled, range⟩
      exact ⟨m, spelled, saturate_eq_self range, .inr range⟩
    · rintro ⟨n, spelled, same, wide | range⟩
      · cases wide
      · rw [saturate_eq_self range] at same
        subst same
        exact ⟨spelled, range⟩
  cases value with
  | tinyInt v => exact exactly (inRange_of_integer? (.tinyInt v) rfl)
  | smallInt v => exact exactly (inRange_of_integer? (.smallInt v) rfl)
  | int v => exact exactly (inRange_of_integer? (.int v) rfl)
  | bigInt v => exact exactly (inRange_of_integer? (.bigInt v) rfl)
  | bool b =>
    refine (exactly (k := if b then 1 else 0) ?_).trans ?_
    · cases b <;> decide
    · cases b <;> simp [Value.Denotes, Value.isFloat]
  | decimal s => exact digits (.inl rfl)
  | text s => exact digits (.inr rfl)
  | real x =>
    simp only [wholeNumber_real_iff, Binary32.whole?_widen_eq_some_iff]
    exact exists_congr fun n => and_congr_right fun _ => (and_iff_left (.inl rfl)).symm
  | double x =>
    simp only [wholeNumber_double_iff, Binary64.whole?_eq_some_iff]
    exact exists_congr fun n => and_congr_right fun _ => (and_iff_left (.inl rfl)).symm
  | _ =>
    constructor
    · nofun
    · rintro ⟨n, denotes, -⟩
      exact denotes.elim

/-- What an integral type takes: the integers of its range, and of the floats beyond 64 bits the nearest
integer that has 64 bits. -/
theorem coerceIntegral_eq_ok_iff (integral : type.isIntegral = true) :
    value.coerceIntegral type = .ok result ↔
      ∃ n : Int, value.Denotes n ∧ result.type? = some type ∧
        (type.InRange n ∧ result.integer? = some n ∨
          type = .bigInt ∧ value.isFloat = true ∧ ¬type.InRange n ∧
            result.integer? = some (saturate n)) := by
  have taken : value.coerceIntegral type = .ok result ↔
      ∃ m, wholeNumber type value = .ok m ∧ type.fit? m = some result := by
    unfold Value.coerceIntegral
    rw [ok_bind]
    refine exists_congr fun m => and_congr_right fun _ => ?_
    cases type.fit? m <;> simp
  rw [taken]
  constructor
  · rintro ⟨m, whole, fits⟩
    obtain ⟨n, denotes, rfl, wide⟩ := wholeNumber_eq_ok_iff.mp whole
    obtain ⟨range, holds⟩ := ScalarType.holds_of_fit? integral fits
    refine ⟨n, denotes, Value.type?_of_fit? integral fits, ?_⟩
    by_cases before : type.InRange n
    · rw [saturate_eq_self (ScalarType.inRange_bigInt integral before)] at holds
      exact .inl ⟨before, holds⟩
    · obtain rfl : type = .bigInt :=
        ((inRange_saturate_iff integral).mp range).resolve_left before
      exact .inr ⟨rfl, wide.resolve_right before, before, holds⟩
  · rintro ⟨n, denotes, of, ⟨range, holds⟩ | ⟨rfl, float, -, holds⟩⟩
    · have small := ScalarType.inRange_bigInt integral range
      refine ⟨n, wholeNumber_eq_ok_iff.mpr ⟨n, denotes, saturate_eq_self small, .inr small⟩, ?_⟩
      exact ScalarType.fit?_of_holds of holds
    · refine ⟨saturate n, wholeNumber_eq_ok_iff.mpr ⟨n, denotes, rfl, .inl float⟩, ?_⟩
      exact ScalarType.fit?_of_holds of holds

/-- What is not NULL is made to fit an integral type as an integer. -/
theorem coerce_eq_coerceIntegral (integral : type.isIntegral = true) (some_value : value ≠ .null) :
    value.coerce type = value.coerceIntegral type := by
  have present : value.isNull = false := by
    rw [← Bool.not_eq_true, Value.isNull_iff]
    exact some_value
  unfold Value.coerce
  rw [present, if_neg Bool.false_ne_true]
  cases type with
  | tinyInt | smallInt | int | bigInt => rfl
  | _ => cases integral

/-- What an integral type takes, NULL among it. -/
theorem coerce_eq_ok_iff (integral : type.isIntegral = true) (value result : Value) :
    value.coerce type = .ok result ↔
      value = .null ∧ result = .null ∨
      ∃ n : Int, value.Denotes n ∧ result.type? = some type ∧
        (type.InRange n ∧ result.integer? = some n ∨
          type = .bigInt ∧ value.isFloat = true ∧ ¬type.InRange n ∧
            result.integer? = some (saturate n)) := by
  rw [← coerceIntegral_eq_ok_iff integral]
  by_cases null : value = .null
  · subst null
    have none : ¬Value.null.coerceIntegral type = .ok result := fun h => by
      obtain ⟨n, denotes, -⟩ := (coerceIntegral_eq_ok_iff integral).mp h
      exact denotes
    simp [none, eq_comm, Value.coerce_null]
  · rw [coerce_eq_coerceIntegral integral null, or_iff_right fun h => null h.1]

/-! ## Main result -/

/-- **An integral type takes NULL and the integers of its range, and keeps them as they are; it takes
nothing else but, if it has 64 bits, a float that is a larger integer.** Of the numbers beyond the range of
the type, such a float is the only one that is not rejected, and what it becomes is the end of the
range. -/
theorem Value.coerce_integral_iff (integral : type.isIntegral = true) (value : Value) :
    (∀ result, coerce type value = .ok result ↔
      value = .null ∧ result = .null ∨
      ∃ n : Int, value.Denotes n ∧ result.type? = some type ∧
        (type.InRange n ∧ result.integer? = some n ∨
          type = .bigInt ∧ value.isFloat = true ∧ ¬type.InRange n ∧
            result.integer? = some (saturate n))) ∧
    ∀ q : ℚ, value.Denotes q → q < type.least ∨ type.greatest < q →
      ((∃ result, coerce type value = .ok result) ↔
        type = .bigInt ∧ value.isFloat = true ∧ ∃ n : Int, q = n) := by
  refine ⟨coerce_eq_ok_iff integral value, fun q denotes beyond => ?_⟩
  have out {n : Int} (same : q = n) : ¬type.InRange n := by
    rintro ⟨low, high⟩
    rw [same] at beyond
    rcases beyond with below | above
    · exact absurd (Int.cast_lt.mp below) (by omega)
    · exact absurd (Int.cast_lt.mp above) (by omega)
  constructor
  · rintro ⟨result, success⟩
    rcases (coerce_eq_ok_iff integral value result).mp success with ⟨rfl, -⟩ | ⟨n, is, -, ⟨range, -⟩ | ⟨widest, float, -⟩⟩
    · exact denotes.elim
    · exact absurd range (out (denotes_unique denotes is))
    · exact ⟨widest, float, n, denotes_unique denotes is⟩
  · rintro ⟨rfl, float, n, rfl⟩
    obtain ⟨low, high⟩ := inRange_saturate n
    refine ⟨.bigInt (Int64.ofInt (saturate n)),
      (coerce_eq_ok_iff integral value _).mpr (.inr ⟨n, denotes, rfl, .inr ?_⟩)⟩
    refine ⟨rfl, float, out rfl, ?_⟩
    exact congrArg some (Int64.toInt_ofInt_of_le low (Int.le_sub_one_iff.mp high))

/-- A decimal with zeros behind its point is kept exactly; the float `2 ^ 63` becomes the integer before
it, and `300` is rejected where eight bits are all there are. -/
theorem Value.coerce_integral_iff_brimful :
    ScalarType.tinyInt.isIntegral = true ∧ ScalarType.bigInt.isIntegral = true ∧
      coerce .tinyInt (.decimal "42.000") = .ok (.tinyInt 42) ∧
      (Value.double ⟨0x43e0000000000000⟩).Denotes (2 ^ 63) ∧
      coerce .bigInt (.double ⟨0x43e0000000000000⟩) = .ok (.bigInt Int64.maxValue) ∧
      ¬∃ result, coerce .tinyInt (.bigInt 300) = .ok result := by
  have spelled : (Value.decimal "42.000").Denotes (42 : Int) :=
    ⟨⟨none, ['4', '2'], some ['0', '0', '0'], by decide, List.all_eq_true.mp rfl,
      List.all_eq_true.mp rfl⟩, by decide, (Spelling.number_eq_iff _).mpr ⟨by simp, rfl⟩⟩
  have large : (Value.double ⟨0x43e0000000000000⟩).Denotes (2 ^ 63 : Int) :=
    Binary64.whole?_eq_some_iff.mp (by decide)
  refine ⟨rfl, rfl, ?_, by exact_mod_cast large, ?_, ?_⟩
  · exact ((coerce_integral_iff rfl _).1 _).mpr (.inr ⟨42, spelled, rfl, .inl ⟨by decide, rfl⟩⟩)
  · exact ((coerce_integral_iff rfl _).1 _).mpr
      (.inr ⟨2 ^ 63, large, rfl, .inr ⟨rfl, rfl, by decide, by decide⟩⟩)
  · have denotes : (Value.bigInt 300).Denotes 300 := (Int.cast_ofNat 300).symm
    have narrow : ScalarType.tinyInt.isIntegral = true := rfl
    have beyond := (coerce_integral_iff narrow (.bigInt 300)).2 300 denotes (.inr (by decide))
    rw [beyond]
    rintro ⟨widest, -⟩
    cases widest

end Orm
