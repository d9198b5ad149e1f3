import Orm.Number.Power
import Orm.Text.Blank
import Orm.Text.Digits

/-!
# `Proofs.Text.Digits` — digits and their value

The value of digits is positional: digits in front of others count for a power of ten more. Writing a
number and reading its digits gives the number back, whatever zeros were put in front of it.

## Contents
- **Values.** `digitValue_lt`, `readDigits_eq`, `readDigits_lt`, `readDigits_eq_zero_iff`, `readDigits_inj`.
- **Digits of a number.** `readDigits_decimal`, `length_padded`, `readDigits_padded`.
- **Blanks.** `isBlank_of_isDigit`, `trim_of_ends`, `trim_of_parts`.
-/

namespace Orm

open Text

/-! ## Values -/

theorem digitValue_lt {c : Char} (digit : c.isDigit = true) : digitValue c < 10 := by
  obtain ⟨-, high⟩ := Char.isDigit_iff_toNat.mp digit
  have last : '9'.toNat = 57 := rfl
  simp only [digitValue]
  omega

theorem digitValue_eq_zero_iff {c : Char} (digit : c.isDigit = true) :
    digitValue c = 0 ↔ c = '0' := by
  obtain ⟨low, -⟩ := Char.isDigit_iff_toNat.mp digit
  have first : '0'.toNat = 48 := rfl
  constructor
  · intro zero
    simp only [digitValue] at zero
    exact Char.toNat_inj.mp (by omega)
  · rintro rfl
    rfl

/-- A digit has a value of its own. -/
theorem digitValue_inj {c d : Char} (digit : c.isDigit = true) (digit' : d.isDigit = true)
    (same : digitValue c = digitValue d) : c = d := by
  obtain ⟨low, -⟩ := Char.isDigit_iff_toNat.mp digit
  obtain ⟨low', -⟩ := Char.isDigit_iff_toNat.mp digit'
  have first : '0'.toNat = 48 := rfl
  simp only [digitValue] at same
  exact Char.toNat_inj.mp (by omega)

@[simp] theorem readDigits_nil (value : Nat) : readDigits value [] = value := rfl

@[simp] theorem readDigits_cons (value : Nat) (c : Char) (rest : List Char) :
    readDigits value (c :: rest) = readDigits (value * 10 + digitValue c) rest :=
  List.foldl_cons ..

@[simp] theorem readDigits_append (value : Nat) (a b : List Char) :
    readDigits value (a ++ b) = readDigits (readDigits value a) b :=
  List.foldl_append

/-- What was read before counts for a power of ten. -/
theorem readDigits_eq (value : Nat) (digits : List Char) :
    readDigits value digits = value * 10 ^ digits.length + readDigits 0 digits := by
  induction digits generalizing value with
  | nil => simp
  | cons c rest ih =>
    rw [readDigits_cons, readDigits_cons, ih, ih (0 * 10 + digitValue c), List.length_cons,
      Nat.pow_succ, Nat.add_mul, Nat.zero_mul, Nat.zero_add, Nat.mul_assoc, Nat.mul_comm 10,
      Nat.add_assoc]

theorem readDigits_lt {digits : List Char} (all : ∀ c ∈ digits, c.isDigit = true) :
    readDigits 0 digits < 10 ^ digits.length := by
  induction digits with
  | nil => exact Nat.one_pos
  | cons c rest ih =>
    have first := digitValue_lt (all c List.mem_cons_self)
    have others := ih fun d hd => all d (List.mem_cons_of_mem c hd)
    rw [readDigits_cons, readDigits_eq, Nat.zero_mul, Nat.zero_add, List.length_cons, Nat.pow_succ]
    calc digitValue c * 10 ^ rest.length + readDigits 0 rest
        < (digitValue c + 1) * 10 ^ rest.length := by
          rw [Nat.succ_mul]
          exact Nat.add_lt_add_left others _
      _ ≤ 10 ^ rest.length * 10 := by
          rw [Nat.mul_comm]
          exact Nat.mul_le_mul_left _ (by omega)

/-- Only zeros have the value zero. -/
theorem readDigits_eq_zero_iff {digits : List Char} (all : ∀ c ∈ digits, c.isDigit = true) :
    readDigits 0 digits = 0 ↔ ∀ c ∈ digits, c = '0' := by
  induction digits with
  | nil => simp
  | cons c rest ih =>
    have first := digitValue_eq_zero_iff (all c List.mem_cons_self)
    have others := ih fun d hd => all d (List.mem_cons_of_mem c hd)
    have pos : 10 ^ rest.length ≠ 0 := Nat.ne_of_gt (Nat.pow_pos (by decide))
    rw [readDigits_cons, readDigits_eq, Nat.zero_mul, Nat.zero_add, Nat.add_eq_zero_iff,
      Nat.mul_eq_zero, or_iff_left pos, first, others, List.forall_mem_cons]

/-- Digits are known by their number and their value. -/
theorem readDigits_inj {a b : List Char} (length : a.length = b.length)
    (all : ∀ c ∈ a, c.isDigit = true) (all' : ∀ c ∈ b, c.isDigit = true)
    (same : readDigits 0 a = readDigits 0 b) : a = b := by
  induction a generalizing b with
  | nil => exact (List.length_eq_zero_iff.mp length.symm).symm
  | cons c rest ih =>
    cases b with
    | nil => cases length
    | cons d more =>
      obtain ⟨digit, digits⟩ := List.forall_mem_cons.mp all
      obtain ⟨digit', digits'⟩ := List.forall_mem_cons.mp all'
      have length : rest.length = more.length := Nat.succ.inj length
      have small := readDigits_lt digits
      have small' := readDigits_lt digits'
      rw [← length] at small'
      rw [readDigits_cons, readDigits_cons, readDigits_eq, readDigits_eq (0 * 10 + digitValue d),
        Nat.zero_mul, Nat.zero_add, Nat.zero_add, ← length] at same
      -- The first digit is the quotient by the power that the others stay below.
      have quotient {n r : Nat} (below : r < 10 ^ rest.length) :
          (n * 10 ^ rest.length + r) / 10 ^ rest.length = n := by
        rw [Nat.mul_comm, Nat.mul_add_div (Nat.pow_pos (by decide)), Nat.div_eq_of_lt below, Nat.add_zero]
      have first : digitValue c = digitValue d := calc
        digitValue c = (digitValue c * 10 ^ rest.length + readDigits 0 rest) / 10 ^ rest.length :=
          (quotient small).symm
        _ = (digitValue d * 10 ^ rest.length + readDigits 0 more) / 10 ^ rest.length := by rw [same]
        _ = digitValue d := quotient small'
      rw [first] at same
      rw [digitValue_inj digit digit' first, ih length digits digits' (Nat.add_left_cancel same)]

/-! ## Digits of a number -/

/-- The digits of a number have its value. -/
@[simp] theorem readDigits_decimal (n : Nat) : readDigits 0 (decimal n) = n := by
  have same : readDigits 0 (decimal n) = Nat.ofDigitChars 10 (Nat.toDigits 10 n) 0 := by
    rw [Nat.ofDigitChars_eq_foldl]
    simp only [readDigits, decimal, digitValue, Nat.mul_comm]
    rfl
  rw [same, Nat.ofDigitChars_ten_toDigits]

theorem decimal_ne_nil (n : Nat) : decimal n ≠ [] :=
  Nat.toDigits_ne_nil

theorem isDigit_of_mem_decimal {n : Nat} {c : Char} (h : c ∈ decimal n) : c.isDigit = true :=
  Nat.isDigit_of_mem_toDigits (by decide) (by decide) h

variable {width n : Nat}

theorem isDigit_of_mem_padded {c : Char} (h : c ∈ padded width n) : c.isDigit = true := by
  rcases List.mem_append.mp h with zero | digit
  · rw [(List.mem_replicate.mp zero).2]
    rfl
  · exact isDigit_of_mem_decimal digit

/-- Zeros in front do not count. -/
@[simp] theorem readDigits_padded (width n : Nat) : readDigits 0 (padded width n) = n := by
  have zeros : readDigits 0 (List.replicate (width - (decimal n).length) '0') = 0 := by
    refine (readDigits_eq_zero_iff ?_).mpr fun c hc => (List.mem_replicate.mp hc).2
    intro c hc
    rw [(List.mem_replicate.mp hc).2]
    rfl
  rw [padded, readDigits_append, zeros, readDigits_decimal]

theorem le_length_padded (width n : Nat) : width ≤ (padded width n).length := by
  rw [padded, List.length_append, List.length_replicate]
  omega

theorem padded_ne_nil (width n : Nat) : padded width n ≠ [] :=
  fun empty => decimal_ne_nil n (List.append_eq_nil_iff.mp empty).2

/-- A number that fits a width fills it. -/
theorem length_padded (pos : 0 < width) (fits : n < 10 ^ width) :
    (padded width n).length = width := by
  have short : (decimal n).length ≤ width := (Nat.length_toDigits_le_iff (by decide) pos).mpr fits
  rw [padded, List.length_append, List.length_replicate]
  omega

/-! ## Blanks -/

theorem isBlank_of_isDigit {c : Char} (digit : c.isDigit = true) : isBlank c = false := by
  obtain ⟨low, high⟩ := Char.isDigit_iff_toNat.mp digit
  have first : '0'.toNat = 48 := rfl
  have last : '9'.toNat = 57 := rfl
  simp only [isBlank, blankRanges, List.any_cons, List.any_nil, Bool.or_false, Bool.or_eq_false_iff,
    Bool.and_eq_false_imp, decide_eq_true_eq, decide_eq_false_iff_not]
  omega

theorem isBlank_of_mem_padded : ∀ c ∈ padded width n, isBlank c = false :=
  fun _ digit => isBlank_of_isDigit (isDigit_of_mem_padded digit)

/-- A text that neither starts nor ends with a blank is left alone by trimming. -/
theorem trim_of_ends {first last : Char} {middle : List Char} (start : isBlank first = false)
    (stop : isBlank last = false) :
    trim (first :: (middle ++ [last])) = first :: (middle ++ [last]) := by
  have back : (first :: (middle ++ [last])).reverse = last :: (middle.reverse ++ [first]) := by simp
  rw [trim, trimStart_cons start, back, trimStart_cons stop]
  simp

/-- A text without blanks but one in its middle is left alone by trimming. -/
theorem trim_of_parts {a b : List Char} {mark : Char} (some : a ≠ []) (some' : b ≠ [])
    (bare : ∀ c ∈ a, isBlank c = false) (bare' : ∀ c ∈ b, isBlank c = false) :
    trim (a ++ mark :: b) = a ++ mark :: b := by
  obtain ⟨first, start, rfl⟩ := List.exists_cons_of_ne_nil some
  have whole : first :: start ++ mark :: b =
      first :: ((start ++ mark :: b.dropLast) ++ [b.getLast some']) := by
    rw [List.append_assoc, List.cons_append, List.cons_append, List.dropLast_concat_getLast]
  rw [whole, trim_of_ends (bare first List.mem_cons_self) (bare' _ (List.getLast_mem some'))]

end Orm
