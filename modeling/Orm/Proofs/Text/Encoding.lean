/-!
# `Proofs.Text.Encoding` — texts as bytes

A character below 128 is one byte in UTF-8, its number; every other character is bytes of 128 and more. So
the bytes below 128 of a text are its characters below 128, and a reader of bytes that takes only such bytes
reads characters, wherever it cuts the text.

## Contents
- **Characters.** `IsAscii`, `utf8EncodeChar_of_ascii`, `le_of_mem_utf8EncodeChar`, `toUInt8_inj`.
- **Texts.** `encoded`, `toUTF8_eq`, `encoded_of_ascii`, `isAscii_of_encoded`, `filter_encoded`.
- **Texts of bytes.** `fromUTF8?_eq_some_iff`, `fromUTF8?_encoded`.
-/

namespace Orm.Text

/-! ## Characters -/

/-- A character that is one byte in UTF-8. -/
def IsAscii (c : Char) : Prop :=
  c.toNat < 128

instance (c : Char) : Decidable (IsAscii c) :=
  inferInstanceAs (Decidable (_ < _))

variable {c : Char}

theorem utf8EncodeChar_of_ascii (ascii : IsAscii c) : String.utf8EncodeChar c = [c.toUInt8] :=
  String.utf8EncodeChar_eq_singleton
    (Char.utf8Size_eq_one_iff.mpr (UInt32.le_iff_toNat_le.mpr (Nat.le_of_lt_succ ascii)))

theorem toNat_toUInt8 (ascii : IsAscii c) : c.toUInt8.toNat = c.toNat :=
  Nat.mod_eq_of_lt (Nat.lt_trans ascii (by decide))

/-- A byte below 128 tells its character. -/
theorem toUInt8_inj {d : Char} (first : IsAscii c) (second : IsAscii d) (same : c.toUInt8 = d.toUInt8) :
    c = d := by
  apply Char.toNat_inj.mp
  rw [← toNat_toUInt8 first, ← toNat_toUInt8 second, same]

/-- Every byte of another character is 128 or more. -/
theorem le_of_mem_utf8EncodeChar (other : ¬IsAscii c) {byte : UInt8}
    (mem : byte ∈ String.utf8EncodeChar c) : 128 ≤ byte.toNat := by
  have high (part least size : Nat) (low : 128 ≤ least) (fits : size + least ≤ 256)
      (some_part : 0 < size) : 128 ≤ (UInt8.ofNat (part % size + least)).toNat := by
    have below := Nat.mod_lt part some_part
    rw [UInt8.toNat_ofNat_of_lt' (by rw [UInt8.size]; omega)]
    omega
  have beyond : ¬c.val.toNat ≤ 127 := fun small => other (Nat.lt_succ_of_le small)
  unfold String.utf8EncodeChar at mem
  rw [if_neg beyond] at mem
  split at mem
  · simp only [List.mem_cons, List.not_mem_nil, or_false] at mem
    rcases mem with rfl | rfl <;> exact high _ _ _ (by decide) (by decide) (by decide)
  · split at mem
    · simp only [List.mem_cons, List.not_mem_nil, or_false] at mem
      rcases mem with rfl | rfl | rfl <;> exact high _ _ _ (by decide) (by decide) (by decide)
    · simp only [List.mem_cons, List.not_mem_nil, or_false] at mem
      rcases mem with rfl | rfl | rfl | rfl <;> exact high _ _ _ (by decide) (by decide) (by decide)

/-! ## Texts -/

/-- The bytes of characters in UTF-8. -/
def encoded (text : List Char) : List UInt8 :=
  text.flatMap String.utf8EncodeChar

variable {text : List Char}

theorem encoded_cons (c : Char) (rest : List Char) :
    encoded (c :: rest) = String.utf8EncodeChar c ++ encoded rest :=
  List.flatMap_cons

theorem toUTF8_eq (s : String) : s.toUTF8.data.toList = encoded s.toList := by
  rw [String.toUTF8_eq_toByteArray, ← String.utf8Encode_toList, List.utf8Encode, List.data_toByteArray]
  rfl

theorem encoded_of_ascii (ascii : ∀ c ∈ text, IsAscii c) : encoded text = text.map Char.toUInt8 := by
  induction text with
  | nil => rfl
  | cons c rest ih =>
    obtain ⟨first, others⟩ := List.forall_mem_cons.mp ascii
    rw [encoded_cons, utf8EncodeChar_of_ascii first, ih others]
    rfl

/-- The bytes are all below 128 just if the characters are. -/
theorem isAscii_of_encoded (small : ∀ byte ∈ encoded text, byte.toNat < 128) :
    ∀ c ∈ text, IsAscii c := by
  intro c mem
  apply Decidable.byContradiction
  intro other
  obtain ⟨byte, inside⟩ := List.exists_mem_of_ne_nil (String.utf8EncodeChar c)
    String.utf8EncodeChar_ne_nil
  have large := le_of_mem_utf8EncodeChar other inside
  have below := small byte (List.mem_flatMap.mpr ⟨c, mem, inside⟩)
  omega

/-- A byte below 128 is found in its own character only. -/
theorem filter_utf8EncodeChar {gone : Char} (ascii : IsAscii gone) (c : Char) :
    (String.utf8EncodeChar c).filter (· != gone.toUInt8) =
      if c = gone then [] else String.utf8EncodeChar c := by
  by_cases same : c = gone
  · rw [same, utf8EncodeChar_of_ascii ascii, if_pos rfl]
    simp
  · rw [if_neg same]
    apply List.filter_eq_self.mpr
    intro byte mem
    apply bne_iff_ne.mpr
    rintro rfl
    by_cases small : IsAscii c
    · rw [utf8EncodeChar_of_ascii small, List.mem_singleton] at mem
      exact same (toUInt8_inj ascii small mem).symm
    · have large := le_of_mem_utf8EncodeChar small mem
      rw [toNat_toUInt8 ascii] at large
      exact Nat.not_lt.mpr large ascii

/-- The bytes without those of a character are the bytes of the text without the character. -/
theorem filter_encoded {gone : Char} (ascii : IsAscii gone) :
    (encoded text).filter (· != gone.toUInt8) = encoded (text.filter (· != gone)) := by
  induction text with
  | nil => rfl
  | cons c rest ih =>
    rw [encoded_cons, List.filter_append, ih, filter_utf8EncodeChar ascii, List.filter_cons]
    by_cases same : c = gone
    · rw [if_pos same, if_neg (by simp [same]), List.nil_append]
    · rw [if_neg same, if_pos (by simp [same]), encoded_cons]

/-! ## Texts of bytes -/

/-- Bytes are a text just if they are the bytes of the text. -/
theorem fromUTF8?_eq_some_iff {bytes : ByteArray} {s : String} :
    String.fromUTF8? bytes = some s ↔ s.toByteArray = bytes := by
  unfold String.fromUTF8?
  constructor
  · intro h
    split at h
    · cases h
      rfl
    · cases h
  · rintro rfl
    rw [dif_pos s.isValidUTF8]
    rfl

/-- The bytes of characters are the text of the characters. -/
theorem fromUTF8?_encoded (text : List Char) :
    String.fromUTF8? ⟨(encoded text).toArray⟩ = some (String.ofList text) := by
  apply fromUTF8?_eq_some_iff.mpr
  rw [String.toByteArray_ofList]
  apply ByteArray.ext
  rw [List.utf8Encode, List.data_toByteArray, encoded]

end Orm.Text
