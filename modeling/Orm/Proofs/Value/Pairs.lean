import Orm.Proofs.Text.Encoding
import Orm.Value.Coercion

/-!
# `Proofs.Value.Pairs` — bytes in pairs of hexadecimal digits

The bytes of a text are read in pairs. A pair is two hexadecimal digits of either case, or a plus and a digit:
the plus counts as a zero. No other pair is read, and so no character of more than one byte is, wherever the
pairs cut it: the pairs of bytes that are read are pairs of characters.

## Contents
- **Digits.** `hexDigits`, `mem_hexDigits_of_hexValue?`, `exists_hexValue?_of_mem`, `hexByte_injective`.
- **Pairs of characters.** `readByte?_zero`, `readByte?_pair_iff`, `mem_of_readByte?`.
- **Pairs of bytes.** `pairByte?_toUInt8`, `lt_of_pairByte?`, `lt_of_pairBytes?`.
- **Bytes.** `zeroed`, `length_hexBytes`, `pairBytes?_eq_some_iff`, `exists_pairBytes?`.
-/

namespace Orm

open Text

/-! ## Digits -/

/-- The hexadecimal digits of either case. -/
def hexDigits : List Char :=
  "0123456789abcdefABCDEF".toList

variable {c : Char} {n : Nat}

/-- A range of characters is part of the digits if each of its characters is. -/
theorem mem_hexDigits_of_range {first last : Char}
    (all : ∀ k, k < last.toNat + 1 - first.toNat → Char.ofNat (first.toNat + k) ∈ hexDigits)
    (range : first ≤ c ∧ c ≤ last) : c ∈ hexDigits := by
  have low : first.toNat ≤ c.toNat := UInt32.le_iff_toNat_le.mp (Char.le_def.mp range.1)
  have high : c.toNat ≤ last.toNat := UInt32.le_iff_toNat_le.mp (Char.le_def.mp range.2)
  have mem := all (c.toNat - first.toNat) (by omega)
  rwa [Nat.add_sub_cancel' low, Char.ofNat_toNat] at mem

/-- Only hexadecimal digits have a value. -/
theorem mem_hexDigits_of_hexValue? (h : hexValue? c = some n) : c ∈ hexDigits := by
  unfold hexValue? at h
  split at h
  · next range => exact mem_hexDigits_of_range (by decide) range
  · split at h
    · next range => exact mem_hexDigits_of_range (by decide) range
    · split at h
      · next range => exact mem_hexDigits_of_range (by decide) range
      · cases h

/-- The value of a digit is below sixteen and is written as the digit in lower case. -/
theorem exists_hexValue?_of_mem (h : c ∈ hexDigits) :
    ∃ n, hexValue? c = some n ∧ n < 16 ∧ Nat.digitChar n = c.toLower := by
  have known : hexDigits.map (fun c => (hexValue? c).map fun n => (decide (n < 16), Nat.digitChar n)) =
      hexDigits.map (fun c => some (true, c.toLower)) := by
    decide
  obtain ⟨n, value, same⟩ := Option.map_eq_some_iff.mp (List.map_inj_left.mp known c h)
  obtain ⟨small, digit⟩ := Prod.mk.inj same
  exact ⟨n, value, of_decide_eq_true small, digit⟩

theorem isAscii_of_mem_hexDigits (h : c ∈ hexDigits) : IsAscii c :=
  of_decide_eq_true (List.all_eq_true.mp (by decide : hexDigits.all (decide <| IsAscii ·) = true) c h)

theorem digitChar_inj {m n : Nat} (hm : m < 16) (hn : n < 16) (same : Nat.digitChar m = Nat.digitChar n) :
    m = n := by
  have read {k : Nat} (digit : k < 16) : hexValue? (Nat.digitChar k) = some k :=
    (by decide : ∀ k : Fin 16, hexValue? (Nat.digitChar k) = some k.val) ⟨k, digit⟩
  exact Option.some.inj ((read hm).symm.trans (same ▸ read hn))

/-- A byte is told by its digits. -/
theorem hexByte_injective {x y : UInt8} (same : hexByte x = hexByte y) : x = y := by
  have hx := x.toNat_lt
  have hy := y.toNat_lt
  obtain ⟨high, low⟩ := List.cons.inj same
  have high := digitChar_inj (by omega) (by omega) high
  have low := digitChar_inj (by omega) (by omega) (List.cons.inj low).1
  apply UInt8.toNat_inj.mp
  omega

/-- The digits of a byte. -/
theorem hexByte_ofNat {m n : Nat} (hm : m < 16) (hn : n < 16) :
    hexByte (UInt8.ofNat (m * 16 + n)) = [Nat.digitChar m, Nat.digitChar n] := by
  have value : (UInt8.ofNat (m * 16 + n)).toNat = m * 16 + n :=
    UInt8.toNat_ofNat_of_lt' (by rw [UInt8.size]; omega)
  have high : (m * 16 + n) / 16 = m := by omega
  have low : (m * 16 + n) % 16 = n := by omega
  rw [hexByte, value, high, low]

/-! ## Pairs of characters -/

variable {a b : Char} {byte : UInt8} {text : List Char}

/-- What is read is the value of the digits, if it is a byte. -/
theorem readByte?_eq_some_iff : readByte? text = some byte ↔ dropPlus text ≠ [] ∧
    ∃ n, readHex? 0 (dropPlus text) = some n ∧ n < 256 ∧ UInt8.ofNat n = byte := by
  unfold readByte?
  simp [Option.filter_eq_some_iff, and_assoc]

theorem dropPlus_of_ne (plain : a ≠ '+') (rest : List Char) : dropPlus (a :: rest) = a :: rest := by
  unfold dropPlus
  split
  · next same => exact absurd (List.cons.inj same).1 plain
  · rfl

/-- A plus in front of a digit counts as a zero. -/
theorem readByte?_zero (b : Char) : readByte? ['0', b] = readByte? ['+', b] := rfl

/-- Two characters are read just if they are digits. -/
theorem readByte?_pair (plain : a ≠ '+') : readByte? [a, b] = some byte ↔
    ∃ m, hexValue? a = some m ∧ ∃ n, hexValue? b = some n ∧ m * 16 + n < 256 ∧
      UInt8.ofNat (m * 16 + n) = byte := by
  have digits {value : Nat} : readHex? 0 [a, b] = some value ↔
      ∃ m, hexValue? a = some m ∧ ∃ n, hexValue? b = some n ∧ m * 16 + n = value := by
    simp [readHex?, Option.bind_eq_some_iff]
  rw [readByte?_eq_some_iff, dropPlus_of_ne plain]
  simp only [digits]
  constructor
  · rintro ⟨-, value, ⟨m, first, n, second, rfl⟩, fits, rfl⟩
    exact ⟨m, first, n, second, fits, rfl⟩
  · rintro ⟨m, first, n, second, fits, rfl⟩
    exact ⟨List.cons_ne_nil _ _, _, ⟨m, first, n, second, rfl⟩, fits, rfl⟩

/-- **A pair of characters is read as the byte that has these digits, a plus in front counting as a zero.** -/
theorem readByte?_pair_iff : readByte? [a, b] = some byte ↔
    (if a = '+' then '0' else a) ∈ hexDigits ∧ b ∈ hexDigits ∧
      hexByte byte = [(if a = '+' then '0' else a).toLower, b.toLower] := by
  -- With the plus replaced both cases are one: two characters, the first of which is no plus.
  obtain ⟨d, front⟩ : ∃ d, (if a = '+' then '0' else a) = d := ⟨_, rfl⟩
  have same : readByte? [a, b] = readByte? [d, b] ∧ d ≠ '+' := by
    rw [← front]
    split
    · next plus => exact ⟨plus ▸ (readByte?_zero b).symm, by decide⟩
    · next plain => exact ⟨rfl, plain⟩
  rw [same.1, readByte?_pair same.2, front]
  constructor
  · rintro ⟨m, first, n, second, -, rfl⟩
    have mem := mem_hexDigits_of_hexValue? first
    have mem' := mem_hexDigits_of_hexValue? second
    obtain ⟨m', same, high, lower⟩ := exists_hexValue?_of_mem mem
    obtain ⟨n', same', low, lower'⟩ := exists_hexValue?_of_mem mem'
    obtain rfl : m' = m := Option.some.inj (same.symm.trans first)
    obtain rfl : n' = n := Option.some.inj (same'.symm.trans second)
    exact ⟨mem, mem', by rw [hexByte_ofNat high low, lower, lower']⟩
  · rintro ⟨mem, mem', digits⟩
    obtain ⟨m, value, high, lower⟩ := exists_hexValue?_of_mem mem
    obtain ⟨n, value', low, lower'⟩ := exists_hexValue?_of_mem mem'
    refine ⟨m, value, n, value', by omega, ?_⟩
    apply hexByte_injective
    rw [hexByte_ofNat high low, lower, lower', digits]

theorem mem_hexDigits_of_readHex? {value : Nat} (h : readHex? value text = some n) :
    ∀ c ∈ text, c ∈ hexDigits := by
  induction text generalizing value with
  | nil => exact List.forall_mem_nil _
  | cons c rest ih =>
    obtain ⟨digit, first, others⟩ := Option.bind_eq_some_iff.mp h
    exact List.forall_mem_cons.mpr ⟨mem_hexDigits_of_hexValue? first, ih others⟩

/-- Only texts of digits, behind a plus or not, are read as a byte. -/
theorem mem_of_readByte? (h : readByte? text = some byte) : ∀ c ∈ text, c = '+' ∨ c ∈ hexDigits := by
  obtain ⟨-, n, read, -⟩ := readByte?_eq_some_iff.mp h
  have digits := mem_hexDigits_of_readHex? read
  unfold dropPlus at digits
  intro c mem
  split at digits
  · rcases List.mem_cons.mp mem with plus | mem
    · exact .inl plus
    · exact .inr (digits c mem)
  · exact .inr (digits c mem)

/-! ## Pairs of bytes -/

/-- The bytes of two characters are read as the characters. -/
theorem pairByte?_toUInt8 (first : IsAscii a) (second : IsAscii b) :
    pairByte? a.toUInt8 b.toUInt8 = readByte? [a, b] := by
  have both : ∀ c ∈ [a, b], IsAscii c :=
    List.forall_mem_cons.mpr ⟨first, List.forall_mem_singleton.mpr second⟩
  have text := fromUTF8?_encoded [a, b]
  rw [encoded_of_ascii both] at text
  show (String.fromUTF8? ⟨#[a.toUInt8, b.toUInt8]⟩).bind (fun text => readByte? text.toList) = _
  rw [show String.fromUTF8? ⟨#[a.toUInt8, b.toUInt8]⟩ = some (String.ofList [a, b]) from text,
    Option.bind_some, String.toList_ofList]

/-- No byte of a character of several bytes is read, whatever byte it is paired with. -/
theorem lt_of_pairByte? {x y : UInt8} (h : pairByte? x y = some byte) : x.toNat < 128 ∧ y.toNat < 128 := by
  obtain ⟨s, valid, read⟩ := Option.bind_eq_some_iff.mp h
  have ascii : ∀ c ∈ s.toList, IsAscii c := by
    intro c mem
    rcases mem_of_readByte? read c mem with rfl | digit
    · decide
    · exact isAscii_of_mem_hexDigits digit
  have bytes : s.toList.map Char.toUInt8 = [x, y] := by
    rw [← encoded_of_ascii ascii, ← toUTF8_eq, String.toUTF8_eq_toByteArray,
      fromUTF8?_eq_some_iff.mp valid]
  have small : ∀ byte ∈ [x, y], byte.toNat < 128 := by
    rw [← bytes, List.forall_mem_map]
    intro c mem
    rw [toNat_toUInt8 (ascii c mem)]
    exact ascii c mem
  exact ⟨small x List.mem_cons_self, small y (by simp)⟩

/-- Only bytes of characters of one byte are read. -/
theorem lt_of_pairBytes? {pairs bytes : List UInt8} (h : pairBytes? pairs = some bytes) :
    ∀ byte ∈ pairs, byte.toNat < 128 := by
  induction pairs using pairBytes?.induct generalizing bytes with
  | case1 => exact List.forall_mem_nil _
  | case2 => cases h
  | case3 x y rest ih =>
    obtain ⟨byte, first, h⟩ := Option.bind_eq_some_iff.mp h
    obtain ⟨tail, others, -⟩ := Option.bind_eq_some_iff.mp h
    obtain ⟨hx, hy⟩ := lt_of_pairByte? first
    exact List.forall_mem_cons.mpr ⟨hx, List.forall_mem_cons.mpr ⟨hy, ih others⟩⟩

/-! ## Bytes -/

/-- The pairs with a zero for every plus in front of its pair. -/
def zeroed : List Char → List Char
  | [] => []
  | [c] => [c]
  | a :: b :: rest => (if a = '+' then '0' else a) :: b :: zeroed rest

@[simp] theorem length_zeroed (text : List Char) : (zeroed text).length = text.length := by
  induction text using zeroed.induct with
  | case1 => rfl
  | case2 c => rfl
  | case3 a b rest ih => simp [zeroed, ih]

/-- Nothing but a plus is replaced. -/
theorem mem_zeroed (h : c ∈ text) : c = '+' ∨ c ∈ zeroed text := by
  induction text using zeroed.induct with
  | case1 => cases h
  | case2 d => exact .inr h
  | case3 a b rest ih =>
    rw [zeroed]
    rcases List.mem_cons.mp h with rfl | h
    · by_cases plus : c = '+'
      · exact .inl plus
      · rw [if_neg plus]
        exact .inr List.mem_cons_self
    · rcases List.mem_cons.mp h with rfl | h
      · exact .inr (List.mem_cons_of_mem _ List.mem_cons_self)
      · rcases ih h with plus | mem
        · exact .inl plus
        · exact .inr (List.mem_cons_of_mem _ (List.mem_cons_of_mem _ mem))

/-- Without a plus nothing is replaced. -/
theorem zeroed_of_not_mem (h : '+' ∉ text) : zeroed text = text := by
  induction text using zeroed.induct with
  | case1 => rfl
  | case2 c => rfl
  | case3 a b rest ih =>
    have first : a ≠ '+' := fun same => h (same ▸ List.mem_cons_self)
    have others : '+' ∉ rest := fun mem => h (List.mem_cons_of_mem _ (List.mem_cons_of_mem _ mem))
    rw [zeroed, if_neg first, ih others]

@[simp] theorem length_hexBytes (bytes : List UInt8) :
    (bytes.flatMap hexByte).length = 2 * bytes.length := by
  induction bytes with
  | nil => rfl
  | cons byte rest ih =>
    rw [List.flatMap_cons, List.length_append, ih, hexByte, List.length_cons]
    simp only [List.length_cons, List.length_nil]
    omega

/-- The digits of bytes are hexadecimal digits in lower case. -/
theorem mem_hexDigits_of_mem_hexBytes {bytes : List UInt8} :
    ∀ c ∈ bytes.flatMap hexByte, c ∈ hexDigits ∧ c.toLower = c := by
  intro c mem
  have digit {k : Nat} (small : k < 16) :
      Nat.digitChar k ∈ hexDigits ∧ (Nat.digitChar k).toLower = Nat.digitChar k :=
    (by decide : ∀ k : Fin 16, Nat.digitChar k ∈ hexDigits ∧
      (Nat.digitChar k).toLower = Nat.digitChar k) ⟨k, small⟩
  obtain ⟨byte, -, mem⟩ := List.mem_flatMap.mp mem
  have small := byte.toNat_lt
  simp only [hexByte, List.mem_cons, List.not_mem_nil, or_false] at mem
  rcases mem with rfl | rfl <;> exact digit (by omega)

theorem isAscii_of_zeroed (all : ∀ c ∈ zeroed text, c ∈ hexDigits) : ∀ c ∈ text, IsAscii c := by
  intro c mem
  rcases mem_zeroed mem with rfl | mem
  · decide
  · exact isAscii_of_mem_hexDigits (all c mem)

/-- One more pair of characters. -/
theorem pairBytes?_encoded_cons (ascii : ∀ c ∈ a :: b :: text, IsAscii c) {bytes : List UInt8} :
    pairBytes? (encoded (a :: b :: text)) = some bytes ↔
      ∃ byte, readByte? [a, b] = some byte ∧ ∃ tail, pairBytes? (encoded text) = some tail ∧
        byte :: tail = bytes := by
  obtain ⟨first, rest⟩ := List.forall_mem_cons.mp ascii
  obtain ⟨second, others⟩ := List.forall_mem_cons.mp rest
  rw [encoded_of_ascii ascii, encoded_of_ascii others, List.map_cons, List.map_cons, pairBytes?,
    pairByte?_toUInt8 first second]
  simp only [Option.bind_eq_bind, Option.bind_eq_some_iff, Option.pure_def, Option.some.injEq]

/-- Characters of one byte are read in pairs. -/
theorem pairBytes?_of_ascii (ascii : ∀ c ∈ text, IsAscii c) {bytes : List UInt8} :
    pairBytes? (encoded text) = some bytes ↔
      (∀ c ∈ zeroed text, c ∈ hexDigits) ∧ bytes.flatMap hexByte = (zeroed text).map Char.toLower := by
  induction text using zeroed.induct generalizing bytes with
  | case1 =>
    cases bytes with
    | nil => simp [encoded, pairBytes?, zeroed]
    | cons byte rest => simp [encoded, pairBytes?, zeroed, hexByte]
  | case2 c =>
    rw [encoded_of_ascii ascii]
    constructor
    · intro read
      cases read
    · rintro ⟨-, digits⟩
      have even := congrArg List.length digits
      rw [length_hexBytes, List.length_map, length_zeroed, List.length_singleton] at even
      omega
  | case3 a b rest ih =>
    have others : ∀ c ∈ rest, IsAscii c := fun c mem =>
      ascii c (List.mem_cons_of_mem _ (List.mem_cons_of_mem _ mem))
    rw [pairBytes?_encoded_cons ascii, zeroed, List.forall_mem_cons, List.forall_mem_cons,
      List.map_cons, List.map_cons]
    constructor
    · rintro ⟨byte, first, tail, behind, rfl⟩
      obtain ⟨high, low, digits⟩ := readByte?_pair_iff.mp first
      obtain ⟨all, behind⟩ := (ih others).mp behind
      refine ⟨⟨high, low, all⟩, ?_⟩
      rw [List.flatMap_cons, digits, behind]
      rfl
    · rintro ⟨⟨high, low, all⟩, digits⟩
      cases bytes with
      | nil => cases digits
      | cons byte tail =>
        rw [List.flatMap_cons] at digits
        have parts : hexByte byte ++ tail.flatMap hexByte =
            [(if a = '+' then '0' else a).toLower, b.toLower] ++ (zeroed rest).map Char.toLower :=
          digits
        obtain ⟨front, behind⟩ := List.append_inj parts rfl
        exact ⟨byte, readByte?_pair_iff.mpr ⟨high, low, front⟩, tail,
          (ih others).mpr ⟨all, behind⟩, rfl⟩

/-- **The bytes of a text are read in pairs just if its pairs of characters are digits, as the bytes that have
these digits.** -/
theorem pairBytes?_eq_some_iff {bytes : List UInt8} :
    pairBytes? (encoded text) = some bytes ↔
      (∀ c ∈ zeroed text, c ∈ hexDigits) ∧ bytes.flatMap hexByte = (zeroed text).map Char.toLower := by
  -- Either side rules out characters of several bytes, so no pair holds parts of two characters.
  constructor
  · intro h
    exact (pairBytes?_of_ascii (isAscii_of_encoded (lt_of_pairBytes? h))).mp h
  · intro digits
    exact (pairBytes?_of_ascii (isAscii_of_zeroed digits.1)).mpr digits

/-- An even number of digits is read. -/
theorem exists_pairBytes? (all : ∀ c ∈ zeroed text, c ∈ hexDigits) (even : text.length % 2 = 0) :
    ∃ bytes, pairBytes? (encoded text) = some bytes := by
  have ascii := isAscii_of_zeroed all
  induction text using zeroed.induct with
  | case1 => exact ⟨[], rfl⟩
  | case2 c => cases even
  | case3 a b rest ih =>
    rw [zeroed, List.forall_mem_cons, List.forall_mem_cons] at all
    obtain ⟨high, low, others⟩ := all
    obtain ⟨m, -, small, lower⟩ := exists_hexValue?_of_mem high
    obtain ⟨n, -, small', lower'⟩ := exists_hexValue?_of_mem low
    obtain ⟨tail, read⟩ := ih others (by simp only [List.length_cons] at even; omega)
      (isAscii_of_zeroed others)
    have digits := hexByte_ofNat small small'
    rw [lower, lower'] at digits
    exact ⟨_, (pairBytes?_encoded_cons ascii).mpr
      ⟨_, readByte?_pair_iff.mpr ⟨high, low, digits⟩, tail, read, rfl⟩⟩

end Orm
