import Orm.Proofs.Value.Integral
import Orm.Value.Key

/-!
# `Proofs.Value.Keys` — keys and the integers in them

Rows are told apart by keys, and keys by the normal forms of their values, one by one. An integer of 64 bits
has one normal form in every kind of number that stands for it: an integer of any width, a decimal with a
fraction of zeros or none, and a float below `2 ^ 53`. No other value shares that normal form, be it a float
beyond, a text that spells the integer or a truth value.

## Contents
- **Numbers.** `Value.isNumber`, `Value.Names`.
- **Normal forms of numbers.** `floatAtom_eq_integer_iff`, `decimalAtom_eq_integer_iff`.
- **Normal forms of values.** `keyPart_eq_integer_iff`, `keyPart_eq_bigInt_iff`.
- **Keys.** `Key.eq_iff_of_ofValues?`.
- **Main result.** `Key.ofValues?_integers`.
-/

namespace Orm

open Number

/-! ## Numbers -/

namespace Value

/-- Whether a value is a number of some kind. -/
def isNumber : Value → Bool
  | .tinyInt _ | .smallInt _ | .int _ | .bigInt _ | .real _ | .double _ | .decimal _ => true
  | _ => false

/-- A value names an integer in a key: it is a number that stands for the integer, and if it is a float the
integer is small enough for floats to tell it from its neighbours. -/
def Names (value : Value) (n : Int) : Prop :=
  value.isNumber = true ∧ value.Denotes n ∧ (value.isFloat = true → n.natAbs < 2 ^ 53)

end Value

/-! ## Normal forms of numbers -/

variable {n : Int}

/-- A float has the normal form of the integer that it is, below `2 ^ 53`. -/
theorem floatAtom_eq_integer_iff {x : Binary64} :
    floatAtom x = .integer n ↔ x.rational? = some (n : ℚ) ∧ n.natAbs < 2 ^ 53 := by
  rw [← Binary64.whole?_eq_some_iff]
  unfold floatAtom
  cases whole : x.whole? with
  | none => simp
  | some m =>
    show (if m.natAbs < 2 ^ 53 then KeyAtom.integer m else .float x.bits) = .integer n ↔ _
    rw [Option.some.injEq]
    by_cases small : m.natAbs < 2 ^ 53
    · rw [if_pos small, KeyAtom.integer.injEq]
      constructor
      · rintro rfl
        exact ⟨rfl, small⟩
      · rintro ⟨same, -⟩
        exact same
    · rw [if_neg small]
      constructor
      · intro same
        cases same
      · rintro ⟨rfl, below⟩
        exact absurd below small

/-- A decimal has the normal form of the integer that it spells, if that has 64 bits. -/
theorem decimalAtom_eq_integer_iff {s : String} :
    decimalAtom s = .integer n ↔ (Value.decimal s).Denotes n ∧ ScalarType.bigInt.InRange n := by
  show decimalAtom s = .integer n ↔ _ ∧ minInteger ≤ n ∧ n ≤ maxInteger
  rw [Value.Denotes, ← readIntegral?_eq_some_iff]
  unfold decimalAtom
  cases readIntegral? s <;> simp

/-! ## Normal forms of values -/

namespace Value

variable {value : Value}

/-- **The values with the normal form of an integer are the numbers that name it.** -/
theorem keyPart_eq_integer_iff (range : ScalarType.bigInt.InRange n) :
    value.keyPart = .atom (.integer n) ↔ value.Names n := by
  have whole (m : Int) : KeyPart.atom (.integer m) = .atom (.integer n) ↔ (n : ℚ) = m := by
    rw [KeyPart.atom.injEq, KeyAtom.integer.injEq, Int.cast_inj, eq_comm]
  unfold Names
  cases value with
  | tinyInt m | smallInt m | int m | bigInt m =>
    rw [keyPart, whole]
    exact ⟨fun same => ⟨rfl, same, fun float => Bool.noConfusion float⟩, fun names => names.2.1⟩
  | real x =>
    rw [keyPart, KeyPart.atom.injEq, floatAtom_eq_integer_iff, Binary32.rational?_widen]
    constructor
    · rintro ⟨same, small⟩
      exact ⟨rfl, same, fun _ => small⟩
    · rintro ⟨-, same, small⟩
      exact ⟨same, small rfl⟩
  | double x =>
    rw [keyPart, KeyPart.atom.injEq, floatAtom_eq_integer_iff]
    constructor
    · rintro ⟨same, small⟩
      exact ⟨rfl, same, fun _ => small⟩
    · rintro ⟨-, same, small⟩
      exact ⟨same, small rfl⟩
  | decimal s =>
    rw [keyPart, KeyPart.atom.injEq, decimalAtom_eq_integer_iff]
    constructor
    · rintro ⟨same, -⟩
      exact ⟨rfl, same, fun float => Bool.noConfusion float⟩
    · rintro ⟨-, same, -⟩
      exact ⟨same, range⟩
  -- No other kind of value is a number, and none has the normal form of an integer.
  | _ => simp [keyPart, isNumber]

/-- A value shares the normal form of an integer of 64 bits just if it names the integer. -/
theorem keyPart_eq_bigInt_iff {n : Int64} :
    value.keyPart = (Value.bigInt n).keyPart ↔ value.Names n.toInt := by
  have wide : (Value.bigInt n).keyPart = .atom (.integer n.toInt) := by rw [keyPart]
  rw [wide]
  exact keyPart_eq_integer_iff (inRange_of_integer? (.bigInt n) rfl)

end Value

/-! ## Keys -/

variable {vs ws : List Value} {k l : Key}

/-- **Keys are equal just if they are of one length and their values have the same normal forms.** -/
theorem Key.eq_iff_of_ofValues? (hk : Key.ofValues? vs = some k) (hl : Key.ofValues? ws = some l) :
    k = l ↔ vs.length = ws.length ∧
      ∀ (i : Nat) (h : i < vs.length) (h' : i < ws.length), vs[i].keyPart = ws[i].keyPart := by
  obtain ⟨-, rfl⟩ := Key.ofValues?_eq_some_iff.mp hk
  obtain ⟨-, rfl⟩ := Key.ofValues?_eq_some_iff.mp hl
  rw [Key.mk.injEq, List.ext_getElem_iff]
  simp only [List.length_map, List.getElem_map]

/-! ## Main result -/

/-- **Keys are told apart by the normal forms of their values, and an integer of 64 bits has one normal form
in all numbers that name it and in nothing else.** There is no key just if every value is NULL. -/
theorem Key.ofValues?_integers :
    (∀ vs, Key.ofValues? vs = none ↔ ∀ v ∈ vs, v = .null) ∧
    (∀ vs ws k l, Key.ofValues? vs = some k → Key.ofValues? ws = some l →
      (k = l ↔ vs.length = ws.length ∧
        ∀ (i : Nat) (h : i < vs.length) (h' : i < ws.length), vs[i].keyPart = ws[i].keyPart)) ∧
    ∀ (n : Int64) (v : Value), v.keyPart = (Value.bigInt n).keyPart ↔ v.Names n.toInt := by
  refine ⟨fun vs => Key.ofValues?_eq_none_iff, ?_, fun n v => Value.keyPart_eq_bigInt_iff⟩
  intro vs ws k l hk hl
  exact Key.eq_iff_of_ofValues? hk hl

/-- Seven is one key in sixty-four bits and in eight, as a decimal with a sign, zeros and blanks, and as a
float; `2 ^ 53` as a float, seven as a text and a truth value have other normal forms. -/
theorem Key.ofValues?_integers_seven :
    (∃ k, Key.ofValues? [.bigInt 7, .null] = some k ∧ Key.ofValues? [.tinyInt 7, .null] = some k ∧
      Key.ofValues? [.decimal " +007.00 ", .null] = some k ∧
      Key.ofValues? [.double ⟨0x401c000000000000⟩, .null] = some k) ∧
    (Value.double ⟨0x4340000000000000⟩).keyPart ≠ (Value.bigInt (2 ^ 53)).keyPart ∧
    (Value.text "7").keyPart ≠ (Value.bigInt 7).keyPart ∧
    (Value.bool true).keyPart ≠ (Value.bigInt 1).keyPart ∧
    Key.ofValues? [.null, .null] = none := by
  obtain ⟨absent, equal, named⟩ := Key.ofValues?_integers
  have made {v : Value} (names : v.Names 7) : ∃ k, Key.ofValues? [v, .null] = some k := by
    apply Option.ne_none_iff_exists'.mp
    intro none
    have null : v = .null := (absent _).mp none v List.mem_cons_self
    rw [null] at names
    cases names.1
  have one {v w : Value} {k : Key} (hv : v.Names 7) (hw : w.Names 7)
      (hk : Key.ofValues? [v, .null] = some k) : Key.ofValues? [w, .null] = some k := by
    obtain ⟨l, hl⟩ := made hw
    have same : w.keyPart = v.keyPart := ((named 7 w).mpr hw).trans ((named 7 v).mpr hv).symm
    obtain rfl : l = k := by
      apply (equal _ _ _ _ hl hk).mpr
      refine ⟨rfl, fun i _ _ => ?_⟩
      match i with
      | 0 => exact same
      | 1 => rfl
    exact hl
  have wide : (Value.bigInt 7).Names 7 := ⟨rfl, rfl, nofun⟩
  have narrow : (Value.tinyInt 7).Names 7 := ⟨rfl, rfl, nofun⟩
  have spelled : (Value.decimal " +007.00 ").Names 7 :=
    ⟨rfl, ⟨⟨some false, ['0', '0', '7'], some ['0', '0'], by decide, List.all_eq_true.mp rfl,
      List.all_eq_true.mp rfl⟩, by decide, (Spelling.number_eq_iff _).mpr ⟨by simp, rfl⟩⟩, nofun⟩
  have float : (Value.double ⟨0x401c000000000000⟩).Names 7 :=
    ⟨rfl, Binary64.whole?_eq_some_iff.mp (by decide), fun _ => by decide⟩
  obtain ⟨k, hk⟩ := made wide
  refine ⟨⟨k, hk, one wide narrow hk, one wide spelled hk, one wide float hk⟩, ?_, ?_, ?_, ?_⟩
  · intro same
    have small := ((named _ _).mp same).2.2 rfl
    revert small
    decide
  · intro same
    cases ((named _ _).mp same).1
  · intro same
    cases ((named _ _).mp same).1
  · exact (absent _).mpr (by simp)

end Orm
