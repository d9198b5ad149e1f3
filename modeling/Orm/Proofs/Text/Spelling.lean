import Mathlib.Algebra.Order.Field.Rat
import Mathlib.Data.Rat.Cast.Order
import Mathlib.Tactic.Linarith
import Mathlib.Tactic.Positivity
import Orm.Proofs.Text.Digits
import Orm.Value.Coercion

/-!
# `Proofs.Text.Spelling` — numbers written in digits

A number is spelled with a sign or without one, with digits, and with a point and further digits or
without them. The places behind the point count for less than one together, so a spelling stands for an
integer just if they are zeros; that is what reading an integer from a text looks for.

A text with an exponent, with a word for infinity or with no digit in front of the point spells no number
here.

## Contents
- **Spellings.** `Spelling` with its `text` and its `number`.
- **One number for a text.** `readSign_text`, `takeWhile_unsigned`, `text_inj`, `number_congr`.
- **Layouts.** `layout`, `eq_iff_number_layout`.
- **Integers.** `readInt_signed`, `exists_of_readInt`, `number_eq_iff`.
- **Main result.** `readIntegral?_eq_some_iff`.
-/

namespace Orm

open Text

/-! ## Spellings -/

/-- A sign or none, digits, and places behind a point or no point. -/
structure Spelling where
  /-- `true` for minus, `false` for plus. -/
  sign : Option Bool
  digits : List Char
  places : Option (List Char)
  some_digit : digits ≠ []
  isDigit_digits : ∀ c ∈ digits, c.isDigit = true
  isDigit_places : ∀ c ∈ places.getD [], c.isDigit = true

namespace Spelling

/-- A sign as it is written. -/
def signText : Option Bool → List Char
  | none => []
  | some true => ['-']
  | some false => ['+']

/-- The point and what stands behind it. -/
def pointText : Option (List Char) → List Char
  | none => []
  | some places => '.' :: places

/-- What stands behind the sign. -/
def unsigned (s : Spelling) : List Char :=
  s.digits ++ pointText s.places

/-- The characters of a spelling. -/
def text (s : Spelling) : List Char :=
  signText s.sign ++ s.unsigned

/-- The number that is spelled, sign apart. -/
def magnitude (s : Spelling) : ℚ :=
  readDigits 0 s.digits + readDigits 0 (s.places.getD []) / 10 ^ (s.places.getD []).length

/-- The number that is spelled. -/
def number (s : Spelling) : ℚ :=
  if s.sign = some true then -s.magnitude else s.magnitude

/-! ## One number for a text -/

/-- A sign is read off in front of digits. -/
theorem readSign_signed {sign : Option Bool} {digits rest : List Char} (some_digit : digits ≠ [])
    (all : ∀ c ∈ digits, c.isDigit = true) :
    readSign (signText sign ++ (digits ++ rest)) = (sign == some true, digits ++ rest) := by
  rcases sign with _ | _ | _
  · obtain ⟨c, cs, rfl⟩ := List.exists_cons_of_ne_nil some_digit
    have digit := all c List.mem_cons_self
    simp only [signText, List.nil_append, List.cons_append]
    unfold readSign
    split
    next same =>
      cases same
      cases digit
    next same =>
      cases same
      cases digit
    next => rfl
  · rfl
  · rfl

theorem readSign_text (s : Spelling) : readSign s.text = (s.sign == some true, s.unsigned) :=
  readSign_signed s.some_digit s.isDigit_digits

theorem takeWhile_unsigned (s : Spelling) : s.unsigned.takeWhile Char.isDigit = s.digits := by
  rw [unsigned, List.takeWhile_append_of_pos s.isDigit_digits]
  cases s.places <;> simp [pointText]

theorem dropWhile_unsigned (s : Spelling) :
    s.unsigned.dropWhile Char.isDigit = pointText s.places := by
  rw [unsigned, List.dropWhile_append_of_pos s.isDigit_digits]
  cases s.places <;> simp [pointText]

/-- A spelling is its sign, its digits and its places. -/
theorem eq_of_parts {a b : Spelling} (sign : a.sign = b.sign) (digits : a.digits = b.digits)
    (places : a.places = b.places) : a = b := by
  cases a
  cases b
  cases sign
  cases digits
  cases places
  rfl

/-- **A text is at most one spelling.** -/
theorem text_inj {a b : Spelling} : a.text = b.text ↔ a = b := by
  constructor
  · intro same
    have unsigned : a.unsigned = b.unsigned := by
      have parts := congrArg readSign same
      rw [readSign_text, readSign_text] at parts
      exact (Prod.mk.inj parts).2
    have signs : signText a.sign = signText b.sign := by
      rw [text, text, unsigned] at same
      exact List.append_cancel_right same
    have tails : pointText a.places = pointText b.places := by
      rw [← dropWhile_unsigned, ← dropWhile_unsigned, unsigned]
    apply eq_of_parts
    · revert signs
      rcases a.sign with _ | _ | _ <;> rcases b.sign with _ | _ | _ <;> simp [signText]
    · rw [← takeWhile_unsigned, ← takeWhile_unsigned, unsigned]
    · revert tails
      rcases a.places with _ | _ <;> rcases b.places with _ | _ <;> simp [pointText]
  · rintro rfl
    rfl

/-- A text spells at most one number. -/
theorem number_congr {a b : Spelling} (same : a.text = b.text) : a.number = b.number :=
  congrArg number (text_inj.mp same)

/-! ## Layouts -/

/-- How a number is laid out: its sign as it is written, how many digits there are, and how many places behind
a point. -/
def layout (s : Spelling) : Option Bool × Nat × Option Nat :=
  (s.sign, s.digits.length, s.places.map List.length)

/-- Sign apart, the number is that of all digits, of which the places count for less than one. -/
theorem magnitude_eq (s : Spelling) :
    s.magnitude = readDigits 0 (s.digits ++ s.places.getD []) / 10 ^ (s.places.getD []).length := by
  rw [readDigits_append, readDigits_eq, magnitude, eq_div_iff (by positivity), add_mul,
    div_mul_cancel₀ _ (by positivity)]
  push_cast
  rfl

/-- **A number has at most one spelling of each layout.** -/
theorem eq_iff_number_layout {a b : Spelling} :
    a = b ↔ a.number = b.number ∧ a.layout = b.layout := by
  constructor
  · rintro rfl
    exact ⟨rfl, rfl⟩
  · rintro ⟨number, layout⟩
    obtain ⟨sign, length, lengths⟩ : a.sign = b.sign ∧ a.digits.length = b.digits.length ∧
        a.places.map List.length = b.places.map List.length := by
      simpa only [Spelling.layout, Prod.mk.injEq] using layout
    have places : (a.places.getD []).length = (b.places.getD []).length := by
      have getD (o : Option (List Char)) : (o.getD []).length = (o.map List.length).getD 0 := by
        cases o <;> rfl
      rw [getD, getD, lengths]
    have magnitude : a.magnitude = b.magnitude := by
      rw [Spelling.number, Spelling.number, sign] at number
      split at number
      · exact neg_inj.mp number
      · exact number
    have joined : a.digits ++ a.places.getD [] = b.digits ++ b.places.getD [] := by
      apply readDigits_inj
      · rw [List.length_append, List.length_append, length, places]
      · exact List.forall_mem_append.mpr ⟨a.isDigit_digits, a.isDigit_places⟩
      · exact List.forall_mem_append.mpr ⟨b.isDigit_digits, b.isDigit_places⟩
      · rw [magnitude_eq, magnitude_eq, places, div_left_inj' (by positivity)] at magnitude
        exact Nat.cast_injective magnitude
    obtain ⟨digits, behind⟩ := List.append_inj joined length
    apply eq_of_parts sign digits
    revert lengths behind
    rcases a.places with _ | _ <;> rcases b.places with _ | _ <;> simp

/-! ## Integers -/

/-- The integer in front of the point. -/
def whole (s : Spelling) : Int :=
  if s.sign = some true then -(readDigits 0 s.digits : Int) else readDigits 0 s.digits

/-- Digits behind a sign are read as an integer. -/
theorem readInt_signed (s : Spelling) :
    readInt (signText s.sign ++ s.digits) = some s.whole := by
  have sign : readSign (signText s.sign ++ (s.digits ++ [])) =
      (s.sign == some true, s.digits ++ []) := readSign_signed s.some_digit s.isDigit_digits
  have digits : readNat s.digits = some (readDigits 0 s.digits) := by
    have all : s.digits.all Char.isDigit = true := List.all_eq_true.mpr s.isDigit_digits
    have some_digit : s.digits.isEmpty = false := List.isEmpty_eq_false_iff.mpr s.some_digit
    simp [readNat, all, some_digit]
  rw [List.append_nil] at sign
  simp [readInt, sign, digits, whole]

/-- Only digits behind a sign are read as an integer. -/
theorem exists_of_readInt {text : List Char} {n : Int} (h : readInt text = some n) :
    ∃ sign digits, text = signText sign ++ digits ∧ digits ≠ [] ∧
      ∀ c ∈ digits, c.isDigit = true := by
  have of_readNat {digits : List Char} {m : Nat} (read : readNat digits = some m) :
      digits ≠ [] ∧ ∀ c ∈ digits, c.isDigit = true := by
    unfold readNat at read
    obtain ⟨parts, -⟩ := Option.ite_none_right_eq_some.mp read
    simpa using parts
  obtain ⟨m, read⟩ : ∃ m, readNat (readSign text).2 = some m := by
    cases nat : readNat (readSign text).2 with
    | none => simp [readInt, nat] at h
    | some m => exact ⟨m, rfl⟩
  unfold readSign at read
  split at read
  next rest => exact ⟨some true, rest, rfl, of_readNat read⟩
  next rest => exact ⟨some false, rest, rfl, of_readNat read⟩
  next => exact ⟨none, text, rfl, of_readNat read⟩

/-- **A spelling stands for an integer just if only zeros stand behind the point.** -/
theorem number_eq_iff (s : Spelling) {n : Int} :
    s.number = n ↔ (∀ c ∈ s.places.getD [], c = '0') ∧ s.whole = n := by
  have less : (readDigits 0 (s.places.getD []) : ℚ) / 10 ^ (s.places.getD []).length < 1 := by
    rw [div_lt_one (by positivity)]
    exact_mod_cast readDigits_lt s.isDigit_places
  have least : (0 : ℚ) ≤ readDigits 0 (s.places.getD []) / 10 ^ (s.places.getD []).length := by
    positivity
  have magnitude (m : Int) : s.magnitude = m ↔
      (∀ c ∈ s.places.getD [], c = '0') ∧ (readDigits 0 s.digits : Int) = m := by
    rw [← readDigits_eq_zero_iff s.isDigit_places]
    unfold Spelling.magnitude
    constructor
    · intro same
      have part : (readDigits 0 (s.places.getD []) : ℚ) / 10 ^ (s.places.getD []).length =
          ((m - readDigits 0 s.digits : Int) : ℚ) := by
        push_cast
        linarith
      rw [part] at less least
      have less' : m - readDigits 0 s.digits < 1 := by exact_mod_cast less
      have least' : 0 ≤ m - (readDigits 0 s.digits : Int) := by exact_mod_cast least
      have nothing : m - (readDigits 0 s.digits : Int) = 0 := by omega
      rw [nothing, Int.cast_zero, div_eq_zero_iff, or_iff_left (by positivity)] at part
      exact ⟨by exact_mod_cast part, by omega⟩
    · rintro ⟨zero, same⟩
      rw [zero, ← same]
      simp
  unfold number whole
  by_cases minus : s.sign = some true
  · rw [if_pos minus, if_pos minus, neg_eq_iff_eq_neg, ← Int.cast_neg, magnitude]
    refine and_congr_right fun _ => ?_
    omega
  · rw [if_neg minus, if_neg minus, magnitude]

/-! ## Main result -/

theorem point_not_mem_signed (s : Spelling) : '.' ∉ signText s.sign ++ s.digits := by
  intro point
  rcases List.mem_append.mp point with sign | digit
  · revert sign
    rcases s.sign with _ | _ | _ <;> decide
  · cases s.isDigit_digits '.' digit

/-- What is read of a text that spells a number. -/
theorem readIntegral?_of_text {text : String} {s : Spelling} (spelled : trim text.toList = s.text) :
    readIntegral? text =
      if (s.places.getD []).all (· == '0') then
        (some s.whole).filter fun n => minInteger ≤ n && n ≤ maxInteger
      else none := by
  have within : readWithin minInteger maxInteger (signText s.sign ++ s.digits) =
      (some s.whole).filter fun n => minInteger ≤ n && n ≤ maxInteger := by
    rw [readWithin, readInt_signed]
  unfold readIntegral?
  rw [spelled, Spelling.text, unsigned, ← List.append_assoc]
  cases s.places with
  | none =>
    have cut : cutAt '.' (signText s.sign ++ s.digits) = none :=
      cutAt_eq_none_iff.mpr s.point_not_mem_signed
    rw [pointText, List.append_nil]
    simp only [cut, within]
    rfl
  | some places =>
    have cut : cutAt '.' (signText s.sign ++ s.digits ++ pointText (some places)) =
        some (signText s.sign ++ s.digits, places) := cutAt_append s.point_not_mem_signed
    simp only [cut, within, Option.getD_some]

/-- Only a text that spells a number is read as an integer. -/
theorem exists_of_readIntegral? {text : String} {n : Int} (h : readIntegral? text = some n) :
    ∃ s : Spelling, trim text.toList = s.text := by
  unfold readIntegral? at h
  dsimp only at h
  split at h
  next before after cut =>
    obtain ⟨zeros, read⟩ := Option.ite_none_right_eq_some.mp h
    obtain ⟨sign, digits, rfl, some_digit, all⟩ :=
      exists_of_readInt (readWithin_eq_some_iff.mp read).1
    refine ⟨⟨sign, digits, some after, some_digit, all, fun c hc => ?_⟩, ?_⟩
    · rw [beq_iff_eq.mp (List.all_eq_true.mp zeros c hc)]
      rfl
    · rw [eq_append_of_cutAt cut, List.append_assoc]
      rfl
  next =>
    obtain ⟨sign, digits, same, some_digit, all⟩ :=
      exists_of_readInt (readWithin_eq_some_iff.mp h).1
    refine ⟨⟨sign, digits, none, some_digit, all, nofun⟩, ?_⟩
    rw [same, Spelling.text, unsigned, pointText, List.append_nil]

end Spelling

/-- **An integer is read just from the spellings of that integer, and only if it has 64 bits.** -/
theorem readIntegral?_eq_some_iff {text : String} {n : Int} :
    readIntegral? text = some n ↔
      (∃ s : Spelling, trim text.toList = s.text ∧ s.number = n) ∧
        minInteger ≤ n ∧ n ≤ maxInteger := by
  have of_spelled {s : Spelling} (spelled : trim text.toList = s.text) :
      readIntegral? text = some n ↔ s.number = n ∧ minInteger ≤ n ∧ n ≤ maxInteger := by
    rw [Spelling.readIntegral?_of_text spelled, Option.ite_none_right_eq_some, s.number_eq_iff,
      Option.filter_eq_some_iff, List.all_eq_true, Option.some.injEq]
    simp only [beq_iff_eq, Bool.and_eq_true, decide_eq_true_eq, and_assoc]
  constructor
  · intro read
    obtain ⟨s, spelled⟩ := Spelling.exists_of_readIntegral? read
    obtain ⟨number, range⟩ := (of_spelled spelled).mp read
    exact ⟨⟨s, spelled, number⟩, range⟩
  · rintro ⟨⟨s, spelled, number⟩, range⟩
    exact (of_spelled spelled).mpr ⟨number, range⟩

end Orm
