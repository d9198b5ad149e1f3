import Mathlib.Algebra.Order.Field.Rat
import Mathlib.Data.Rat.Cast.Order
import Mathlib.Tactic.FieldSimp
import Mathlib.Tactic.Linarith
import Mathlib.Tactic.Ring
import Orm.Number.Binary

/-!
# `Proofs.Number.Exact` — the rational number behind the bits

A bit pattern stands for `± fraction * 2 ^ e` or for nothing. That number is written down here from the
three fields of the pattern alone, and what the library computes is compared with it: the integer that a
pattern is, and the pattern of more bits that a narrow one is widened to. A quotient that lies on the grid
of a format is not rounded, and every 32-bit number lies on the grid of the 64-bit numbers; so widening
keeps the number.

## Contents
- **The number of a pattern.** `Format.rational?`, in terms of `sign`, `exponentField` and `fraction`.
- **Readings.** `Reading.rational?`, `Reading.whole?_eq_some_iff`, `Format.rational?_read`.
- **Patterns with a sign.** `read_withSign`, `read_withSign_normal`.
- **Quotients on the grid.** `ratio_eq`, `scaled_eq`, `log2_ratio`, `nearest_ratio`.
- **Widening.** `bounds_of_read`, `convert_lt`, `rational?_convert`.
- **Main results.** `Binary64.whole?_eq_some_iff`, `Binary32.rational?_widen`,
  `Binary32.whole?_widen_eq_some_iff`.
-/

namespace Orm.Number

/-! ## The number of a pattern -/

namespace Format

variable {f : Format} {bits : Nat}

/-- The sign of a pattern, its first bit. -/
def sign (f : Format) (bits : Nat) : ℚ :=
  if bits / 2 ^ (f.exponentBits + f.fractionBits) % 2 = 1 then -1 else 1

/-- The bits behind the sign. -/
def exponentField (f : Format) (bits : Nat) : Nat :=
  bits / 2 ^ f.fractionBits % 2 ^ f.exponentBits

/-- The last bits, as the places behind the point. -/
def fraction (f : Format) (bits : Nat) : ℚ :=
  (bits % 2 ^ f.fractionBits : Nat) / 2 ^ f.fractionBits

/-- The number that a pattern stands for. A one stands in front of the point unless the exponent field is
zero; patterns with the largest exponent field are infinities and NaNs and stand for no number. -/
def rational? (f : Format) (bits : Nat) : Option ℚ :=
  if f.exponentField bits = 2 ^ f.exponentBits - 1 then none
  else if f.exponentField bits = 0 then
    some (f.sign bits * f.fraction bits * 2 ^ (1 - (f.bias : ℤ)))
  else
    some (f.sign bits * (1 + f.fraction bits) * 2 ^ ((f.exponentField bits : ℤ) - (f.bias : ℤ)))

end Format

/-- The number that the bits stand for. -/
def Binary32.rational? (x : Binary32) : Option ℚ :=
  binary32.rational? x.bits.toNat

/-- The number that the bits stand for. -/
def Binary64.rational? (x : Binary64) : Option ℚ :=
  binary64.rational? x.bits.toNat

/-! ## Readings -/

namespace Reading

/-- The number that a reading stands for. -/
def rational? : Reading → Option ℚ
  | .finite negative significand exponent =>
    some ((if negative then -1 else 1) * (significand * 2 ^ exponent))
  | _ => none

theorem ratio_snd_pos (significand : Nat) (exponent : Int) : 0 < (ratio significand exponent).2 := by
  unfold ratio
  split
  · exact Nat.one_pos
  · exact Nat.two_pow_pos _

/-- The quotient of a magnitude is the magnitude. -/
theorem ratio_eq (significand : Nat) (exponent : Int) :
    ((ratio significand exponent).1 : ℚ) / ((ratio significand exponent).2 : ℚ) =
      significand * 2 ^ exponent := by
  unfold ratio
  split
  next nonneg =>
    obtain ⟨k, rfl⟩ := Int.eq_ofNat_of_zero_le nonneg
    simp
  next negative =>
    obtain ⟨k, rfl⟩ : ∃ k : Nat, exponent = -k := ⟨(-exponent).toNat, by omega⟩
    simp [div_eq_mul_inv]

/-- A reading is a whole number just if it stands for one. -/
theorem whole?_eq_some_iff {r : Reading} {n : Int} :
    r.whole? = some n ↔ r.rational? = some (n : ℚ) := by
  cases r with
  | nan | infinite _ => simp [whole?, rational?]
  | finite negative significand exponent =>
    have pos : 0 < (ratio significand exponent).2 := ratio_snd_pos significand exponent
    simp only [whole?, rational?, Option.some.injEq, ← ratio_eq]
    generalize ratio significand exponent = q at pos ⊢
    have pos' : (q.2 : ℚ) ≠ 0 := by exact_mod_cast pos.ne'
    have quotient (m : ℤ) : (q.1 : ℚ) / (q.2 : ℚ) = m ↔ (q.1 : ℤ) = m * q.2 := by
      rw [div_eq_iff pos']
      exact_mod_cast Iff.rfl
    have signed : (if negative then -1 else 1) * ((q.1 : ℚ) / (q.2 : ℚ)) = (n : ℚ) ↔
        (q.1 : ℤ) = (if negative then -n else n) * q.2 := by
      rw [← quotient]
      cases negative <;> simp [neg_eq_iff_eq_neg]
    rw [signed]
    split
    next whole =>
      obtain ⟨k, hk⟩ := Nat.dvd_of_mod_eq_zero whole
      have nonzero : (q.2 : ℤ) ≠ 0 := by exact_mod_cast pos.ne'
      have value : q.1 / q.2 = k := by rw [hk, Nat.mul_div_cancel_left k pos]
      have same : (q.1 : ℤ) = k * q.2 := by rw [hk, Nat.cast_mul, mul_comm]
      rw [value, same, mul_left_inj' nonzero, Option.some.injEq]
      cases negative
      · simp
      · simp [neg_eq_iff_eq_neg]
    next broken =>
      simp only [reduceCtorEq, false_iff]
      intro same
      have divides : (q.2 : ℤ) ∣ (q.1 : ℤ) := ⟨_, same.trans (mul_comm _ _)⟩
      exact broken (Nat.mod_eq_zero_of_dvd (by exact_mod_cast divides))

end Reading

namespace Format

variable {f : Format} {bits : Nat}

/-- **A pattern is read as the number that it stands for.** -/
theorem rational?_read (bounded : bits < 2 * f.signBit) :
    (f.read bits).rational? = f.rational? bits := by
  have field : bits % f.signBit / 2 ^ f.fractionBits = f.exponentField bits := by
    rw [signBit, Nat.pow_add, Nat.mul_comm, Nat.mod_mul_right_div_self]
    rfl
  have places : bits % f.signBit % 2 ^ f.fractionBits = bits % 2 ^ f.fractionBits := by
    rw [signBit, Nat.pow_add, Nat.mul_comm, Nat.mod_mul_right_mod]
  have top : f.infinity ≤ bits % f.signBit ↔ f.exponentField bits = 2 ^ f.exponentBits - 1 := by
    have below : f.exponentField bits < 2 ^ f.exponentBits := Nat.mod_lt _ (Nat.two_pow_pos _)
    rw [infinity, ← Nat.le_div_iff_mul_le (Nat.two_pow_pos _), field]
    omega
  have signed : f.sign bits = if decide (f.signBit ≤ bits) then -1 else 1 := by
    have digit : bits / f.signBit % 2 = 1 ↔ f.signBit ≤ bits := by
      have pos : 0 < f.signBit := Nat.two_pow_pos _
      have small : bits / f.signBit < 2 := Nat.div_lt_of_lt_mul (by omega)
      rw [Nat.mod_eq_of_lt small, ← Nat.one_le_div_iff pos]
      omega
    simp only [Format.sign, decide_eq_true_eq, ← digit]
    rfl
  have two : (2 : ℚ) ≠ 0 := by norm_num
  unfold read rational?
  simp only [field, places]
  by_cases special : f.exponentField bits = 2 ^ f.exponentBits - 1
  · have high := top.mpr special
    rw [if_pos special]
    split
    · rfl
    · rw [if_pos (by omega)]
      rfl
  · have low : ¬f.infinity ≤ bits % f.signBit := fun h => special (top.mp h)
    rw [if_neg special, if_neg (by omega), if_neg (by omega)]
    split
    next zero =>
      simp only [Reading.rational?, ← signed, Format.fraction, minExponent]
      rw [zpow_sub₀ two, zpow_natCast]
      congr 1
      ring
    next normal =>
      simp only [Reading.rational?, ← signed, Format.fraction, minExponent]
      have place : 1 - (f.bias : ℤ) - (f.fractionBits : ℤ) + (f.exponentField bits : ℤ) - 1 =
          ((f.exponentField bits : ℤ) - (f.bias : ℤ)) - (f.fractionBits : ℤ) := by ring
      rw [place, zpow_sub₀ two _ (f.fractionBits : ℤ), zpow_natCast]
      congr 1
      push_cast
      field_simp

/-! ## Patterns with a sign -/

theorem infinity_lt_signBit (f : Format) : f.infinity < f.signBit := by
  rw [infinity, signBit, Nat.pow_add]
  exact Nat.mul_lt_mul_of_pos_right (Nat.sub_lt (Nat.two_pow_pos _) Nat.one_pos) (Nat.two_pow_pos _)

theorem infinity_add_lt_signBit {payload : Nat} (small : payload < 2 ^ f.fractionBits) :
    f.infinity + payload < f.signBit := by
  have one : 1 ≤ 2 ^ f.exponentBits := Nat.two_pow_pos _
  calc f.infinity + payload < f.infinity + 2 ^ f.fractionBits := Nat.add_lt_add_left small _
    _ = f.signBit := by
      rw [infinity, signBit, Nat.pow_add, Nat.sub_mul, Nat.one_mul, Nat.sub_add_cancel]
      exact Nat.le_mul_of_pos_left _ one

theorem withSign_lt {negative : Bool} {magnitude : Nat} (small : magnitude < f.signBit) :
    f.withSign negative magnitude < 2 * f.signBit := by
  cases negative <;> simp only [withSign, Bool.false_eq_true, if_true, if_false] <;> omega

/-- The sign is read off apart from the rest. -/
theorem read_withSign {negative : Bool} {magnitude : Nat} (small : magnitude < f.signBit) :
    f.read (f.withSign negative magnitude) =
      if f.infinity < magnitude then .nan
      else if magnitude = f.infinity then .infinite negative
      else if magnitude / 2 ^ f.fractionBits = 0 then
        .finite negative (magnitude % 2 ^ f.fractionBits) f.minExponent
      else .finite negative (2 ^ f.fractionBits + magnitude % 2 ^ f.fractionBits)
        (f.minExponent + (magnitude / 2 ^ f.fractionBits : Nat) - 1) := by
  have signed : decide (f.signBit ≤ f.withSign negative magnitude) = negative := by
    cases negative
    · simpa [withSign] using small
    · simp [withSign]
  have rest : f.withSign negative magnitude % f.signBit = magnitude := by
    cases negative <;> simp [withSign, Nat.mod_eq_of_lt small]
  simp only [read, signed, rest]

/-- A significand with all its places, put `place` exponents above the smallest one, is read back. Its
leading bit adds one to the exponent field. -/
theorem read_withSign_normal {negative : Bool} {significand place : Nat}
    (least : 2 ^ f.fractionBits ≤ significand) (most : significand < 2 ^ f.fractionBits * 2)
    (fits : place + 2 < 2 ^ f.exponentBits) :
    f.read (f.withSign negative (place * 2 ^ f.fractionBits + significand)) =
      .finite negative significand (f.minExponent + place) := by
  obtain ⟨places, rfl⟩ := Nat.exists_eq_add_of_le least
  have short : places < 2 ^ f.fractionBits := by omega
  have cut : place * 2 ^ f.fractionBits + (2 ^ f.fractionBits + places) =
      places + (place + 1) * 2 ^ f.fractionBits := by ring
  have field : (places + (place + 1) * 2 ^ f.fractionBits) / 2 ^ f.fractionBits = place + 1 := by
    rw [Nat.add_mul_div_right _ _ (Nat.two_pow_pos _), Nat.div_eq_of_lt short, Nat.zero_add]
  have rest : (places + (place + 1) * 2 ^ f.fractionBits) % 2 ^ f.fractionBits = places := by
    rw [Nat.add_mul_mod_self_right, Nat.mod_eq_of_lt short]
  have finite : places + (place + 1) * 2 ^ f.fractionBits < f.infinity := by
    calc places + (place + 1) * 2 ^ f.fractionBits < (place + 2) * 2 ^ f.fractionBits := by
          rw [Nat.succ_mul (place + 1)]
          omega
      _ ≤ f.infinity := Nat.mul_le_mul_right _ (by omega)
  rw [cut, read_withSign (finite.trans f.infinity_lt_signBit), if_neg (by omega),
    if_neg (by omega), field, rest, if_neg (Nat.succ_ne_zero _)]
  congr 1
  push_cast
  ring

/-! ## Quotients on the grid -/

theorem scaled_snd_pos (num : Nat) {den : Nat} (pos : 0 < den) (exponent : Int) :
    0 < (scaled num den exponent).2 := by
  unfold scaled
  split
  · exact Nat.mul_pos pos (Nat.two_pow_pos _)
  · exact pos

theorem scaled_eq (num den : Nat) (exponent : Int) :
    ((scaled num den exponent).1 : ℚ) / ((scaled num den exponent).2 : ℚ) =
      num / den / 2 ^ exponent := by
  unfold scaled
  split
  next nonneg =>
    obtain ⟨k, rfl⟩ := Int.eq_ofNat_of_zero_le nonneg
    simp [div_div]
  next negative =>
    obtain ⟨k, rfl⟩ : ∃ k : Nat, exponent = -k := ⟨(-exponent).toNat, by omega⟩
    simp [div_eq_mul_inv]
    ring

/-- Over a power of two that is not above its own, a number is whole. -/
theorem scaled_ratio (significand : Nat) {exponent place : Int} {shift : Nat}
    (apart : exponent = place + shift) {q : Nat × Nat}
    (same : scaled (Reading.ratio significand exponent).1 (Reading.ratio significand exponent).2
      place = q) :
    q.1 = significand * 2 ^ shift * q.2 := by
  subst same
  have pos := scaled_snd_pos (Reading.ratio significand exponent).1
    (Reading.ratio_snd_pos significand exponent) place
  have two : (2 : ℚ) ≠ 0 := by norm_num
  have power : (2 : ℚ) ^ exponent = 2 ^ place * 2 ^ shift := by
    rw [apart, zpow_add₀ two, zpow_natCast]
  have quotient := scaled_eq (Reading.ratio significand exponent).1
    (Reading.ratio significand exponent).2 place
  rw [Reading.ratio_eq, power, mul_div_assoc, mul_div_cancel_left₀ _ (zpow_ne_zero _ two),
    div_eq_iff (by exact_mod_cast pos.ne')] at quotient
  exact_mod_cast quotient

theorem log2_mul_two_pow {n : Nat} (pos : n ≠ 0) (k : Nat) : (n * 2 ^ k).log2 = n.log2 + k := by
  rw [Nat.log2_eq_iff (Nat.mul_ne_zero pos (Nat.two_pow_pos k).ne')]
  constructor
  · rw [Nat.pow_add]
    exact Nat.mul_le_mul_right _ (Nat.log2_self_le pos)
  · rw [Nat.add_right_comm, Nat.pow_add]
    exact Nat.mul_lt_mul_of_pos_right Nat.lt_log2_self (Nat.two_pow_pos k)

theorem log2_ratio {significand : Nat} (pos : significand ≠ 0) (exponent : Int) :
    ((Reading.ratio significand exponent).1.log2 : Int) -
      ((Reading.ratio significand exponent).2.log2 : Int) = significand.log2 + exponent := by
  unfold Reading.ratio
  split
  next whole =>
    obtain ⟨e, rfl⟩ := Int.eq_ofNat_of_zero_le whole
    have unit : Nat.log2 1 = 0 := Nat.log2_two_pow (n := 0)
    simp [log2_mul_two_pow pos, unit]
  next =>
    simp only [Nat.log2_two_pow]
    omega

/-- Shifted to where its leading bit is the first of a significand, a number has all its places. -/
theorem shifted_bounds {significand shift : Nat} (pos : significand ≠ 0)
    (shifted : significand.log2 + shift = f.fractionBits) :
    2 ^ f.fractionBits ≤ significand * 2 ^ shift ∧
      significand * 2 ^ shift < 2 ^ f.fractionBits * 2 := by
  rw [← shifted, Nat.pow_add]
  constructor
  · exact Nat.mul_le_mul_right _ (Nat.log2_self_le pos)
  · rw [Nat.mul_right_comm, ← Nat.pow_succ]
    exact Nat.mul_lt_mul_of_pos_right Nat.lt_log2_self (Nat.two_pow_pos shift)

/-- **A number on the grid of a format is not rounded.** Its last place is `place` exponents above the
smallest one of the format, and the exponent that is guessed from the two logarithms is that place. -/
theorem nearest_ratio {significand : Nat} {exponent : Int} {shift place : Nat}
    (pos : significand ≠ 0) (shifted : significand.log2 + shift = f.fractionBits)
    (placed : exponent = f.minExponent + place + shift)
    (fits : place + 2 < 2 ^ f.exponentBits) :
    f.nearest (Reading.ratio significand exponent).1 (Reading.ratio significand exponent).2 =
      place * 2 ^ f.fractionBits + significand * 2 ^ shift := by
  obtain ⟨least, most⟩ := shifted_bounds pos shifted
  have some_num : (Reading.ratio significand exponent).1 ≠ 0 := by
    unfold Reading.ratio
    split
    · exact Nat.mul_ne_zero pos (Nat.two_pow_pos _).ne'
    · exact pos
  have guess : ((Reading.ratio significand exponent).1.log2 : Int) -
      ((Reading.ratio significand exponent).2.log2 : Int) - (f.fractionBits : Int) =
        f.minExponent + place := by
    rw [log2_ratio pos]
    omega
  obtain ⟨q, same⟩ : ∃ q, scaled (Reading.ratio significand exponent).1
      (Reading.ratio significand exponent).2 (f.minExponent + place) = q := ⟨_, rfl⟩
  have whole : q.1 = significand * 2 ^ shift * q.2 := scaled_ratio significand placed same
  have unit : 0 < q.2 := same ▸ scaled_snd_pos _ (Reading.ratio_snd_pos significand exponent) _
  have last : f.lastPlace (Reading.ratio significand exponent).1
      (Reading.ratio significand exponent).2 = f.minExponent + place := by
    have full : ¬q.1 < q.2 * 2 ^ f.fractionBits := by
      rw [whole, Nat.mul_comm, Nat.not_lt]
      exact Nat.mul_le_mul_left _ least
    simp only [lastPlace, guess, same, if_neg full]
    omega
  have kept : roundHalfEven q.1 q.2 = significand * 2 ^ shift := by
    rw [whole, roundHalfEven_of_mod_eq_zero unit (Nat.mul_mod_left _ _), Nat.mul_div_cancel _ unit]
  have below : place * 2 ^ f.fractionBits + significand * 2 ^ shift ≤ f.infinity := by
    calc place * 2 ^ f.fractionBits + significand * 2 ^ shift
        ≤ (place + 2) * 2 ^ f.fractionBits := by
          rw [Nat.add_mul]
          omega
      _ ≤ f.infinity := Nat.mul_le_mul_right _ (by omega)
  have steps : (f.minExponent + place - f.minExponent).toNat = place := by omega
  simp only [nearest, if_neg some_num, last, same, kept, steps]
  exact Nat.min_eq_right below

theorem nearest_le (num den : Nat) : f.nearest num den ≤ f.infinity := by
  unfold nearest
  split
  · exact Nat.zero_le _
  · exact Nat.min_le_left _ _

/-! ## Widening -/

/-- What a finite pattern is read as has at most the places and the exponents of the format. -/
theorem bounds_of_read {negative : Bool} {significand : Nat} {exponent : Int}
    (h : f.read bits = .finite negative significand exponent) :
    significand < 2 ^ (f.fractionBits + 1) ∧ f.minExponent ≤ exponent ∧
      exponent ≤ f.minExponent + (2 ^ f.exponentBits : Nat) := by
  have field : bits % f.signBit / 2 ^ f.fractionBits < 2 ^ f.exponentBits := by
    refine Nat.div_lt_of_lt_mul ?_
    rw [← Nat.pow_add, Nat.add_comm]
    exact Nat.mod_lt _ (Nat.two_pow_pos _)
  unfold read at h
  rw [Nat.pow_succ]
  dsimp only at h
  generalize bits % f.signBit / 2 ^ f.fractionBits = e at h field
  split at h
  · cases h
  split at h
  · cases h
  split at h
  · cases h
    exact ⟨by omega, le_refl _, by omega⟩
  · cases h
    exact ⟨by omega, by omega, by omega⟩

/-- A NaN becomes a NaN. -/
theorem exists_payload (f : Format) {g : Format} (places : 0 < g.fractionBits) (bits : Nat) :
    ∃ payload, 0 < payload ∧ payload < 2 ^ g.fractionBits ∧
      f.convertNaN g bits = g.withSign (decide (f.signBit ≤ bits)) (g.infinity + payload) := by
  have short : bits % 2 ^ f.fractionBits < 2 ^ f.fractionBits := Nat.mod_lt _ (Nat.two_pow_pos _)
  have moved : bits % 2 ^ f.fractionBits * 2 ^ g.fractionBits / 2 ^ f.fractionBits <
      2 ^ g.fractionBits :=
    Nat.div_lt_of_lt_mul (Nat.mul_lt_mul_of_pos_right short (Nat.two_pow_pos _))
  have quiet : g.quietBit < 2 ^ g.fractionBits := Nat.pow_lt_pow_right (by decide) (by omega)
  have pos : 0 < g.quietBit := Nat.two_pow_pos _
  exact ⟨_, Nat.lt_of_lt_of_le pos Nat.right_le_or, Nat.or_lt_two_pow moved quiet, rfl⟩

theorem convert_lt {g : Format} (places : 0 < g.fractionBits) :
    f.convert g bits < 2 * g.signBit := by
  unfold convert
  split
  next =>
    obtain ⟨payload, -, small, same⟩ := f.exists_payload places bits
    rw [same]
    exact withSign_lt (infinity_add_lt_signBit small)
  next => exact withSign_lt g.infinity_lt_signBit
  next => exact withSign_lt ((nearest_le _ _).trans_lt g.infinity_lt_signBit)

/-- **A 32-bit number is the same number in 64 bits.** Subnormal numbers of 32 bits get a leading bit
there, so that they too have a place on the grid. -/
theorem rational?_convert (bits : Nat) :
    (binary64.read (binary32.convert binary64 bits)).rational? = (binary32.read bits).rational? := by
  unfold convert
  cases h : binary32.read bits with
  | nan =>
    obtain ⟨payload, pos, small, same⟩ := binary32.exists_payload (g := binary64) (by decide) bits
    dsimp only
    rw [same, read_withSign (infinity_add_lt_signBit small), if_pos (by omega)]
  | infinite negative =>
    dsimp only
    rw [read_withSign (infinity_lt_signBit _), if_neg (by omega), if_pos rfl]
  | finite negative significand exponent =>
    dsimp only
    by_cases zero : significand = 0
    · subst zero
      have nothing : (Reading.ratio 0 exponent).1 = 0 := by
        unfold Reading.ratio
        split <;> simp
      have read_zero : binary64.read (binary64.withSign negative 0) =
          .finite negative 0 binary64.minExponent := by
        cases negative <;> decide
      simp [nearest, nothing, read_zero, Reading.rational?]
    · obtain ⟨narrow, low, high⟩ := bounds_of_read h
      have size : significand.log2 < 24 := (Nat.log2_lt zero).mpr narrow
      have least : (-149 : Int) ≤ exponent := low
      have most : exponent ≤ (107 : Int) := high
      have smallest : binary64.minExponent = -1074 := rfl
      obtain ⟨shift, shifted⟩ : ∃ shift, significand.log2 + shift = binary64.fractionBits :=
        ⟨52 - significand.log2, Nat.add_sub_cancel' (by omega)⟩
      have width : significand.log2 + shift = 52 := shifted
      obtain ⟨place, placed⟩ : ∃ place : Nat, exponent = binary64.minExponent + place + shift :=
        ⟨(exponent + 1074 - shift).toNat, by omega⟩
      have fits : place + 2 < 2 ^ binary64.exponentBits := by
        have top : 2 ^ binary64.exponentBits = 2048 := rfl
        omega
      obtain ⟨first, last⟩ := shifted_bounds zero shifted
      rw [nearest_ratio zero shifted placed fits, read_withSign_normal first last fits]
      simp only [Reading.rational?, placed]
      rw [zpow_add₀ (by norm_num) _ (shift : Int), zpow_natCast]
      congr 1
      push_cast
      ring

end Format

/-! ## Main results -/

/-- **A 64-bit number is the integer that its bits stand for, if they stand for one.** -/
theorem Binary64.whole?_eq_some_iff {x : Binary64} {n : Int} :
    x.whole? = some n ↔ x.rational? = some (n : ℚ) := by
  have bounded : x.bits.toNat < 2 * binary64.signBit := x.bits.toNat_lt
  unfold whole? read rational?
  rw [Reading.whole?_eq_some_iff, Format.rational?_read bounded]

/-- **Widening keeps the number.** -/
theorem Binary32.rational?_widen (x : Binary32) : x.widen.rational? = x.rational? := by
  have bounded : x.bits.toNat < 2 * binary32.signBit := x.bits.toNat_lt
  have fits : binary32.convert binary64 x.bits.toNat < 2 * binary64.signBit :=
    Format.convert_lt (by decide)
  have stored : x.widen.bits.toNat = binary32.convert binary64 x.bits.toNat :=
    UInt64.toNat_ofNat_of_lt' fits
  unfold Binary64.rational? rational?
  rw [stored, ← Format.rational?_read fits, Format.rational?_convert,
    Format.rational?_read bounded]

/-- **A 32-bit number is the integer that its bits stand for, if they stand for one.** -/
theorem Binary32.whole?_widen_eq_some_iff {x : Binary32} {n : Int} :
    x.widen.whole? = some n ↔ x.rational? = some (n : ℚ) := by
  rw [Binary64.whole?_eq_some_iff, rational?_widen]

end Orm.Number
