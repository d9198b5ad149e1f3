import Orm.Proofs.Value.Pairs

/-!
# `Proofs.Value.Identifiers` — the texts of identifiers

An identifier is written with thirty-two hexadecimal digits of either case, and hyphens may stand anywhere
among them. It is rendered with the same digits in lower case and with hyphens in their four places.

The digits are read in pairs, and the first of a pair may also be a plus: it counts as a zero. So a text is
taken just if there are thirty-two hexadecimal digits once every such plus is replaced.

## Contents
- **Hyphens.** `hyphenated`, `filter_hyphenated`, `Uuid.text_eq`.
- **Texts.** `Uuid.digitsOf`, `Uuid.ofText?_eq_some_iff`, `Uuid.ofText?_text`, `Uuid.exists_ofText?_iff`.
- **Main result.** `Value.coerce_uuid_text_iff`.
-/

namespace Orm

open Text

/-! ## Hyphens -/

/-- Digits in groups of 8, 4, 4, 4 and 12. -/
def hyphenated (digits : List Char) : List Char :=
  digits.take 8 ++ '-' :: (digits.drop 8).take 4 ++ '-' :: (digits.drop 12).take 4 ++
    '-' :: (digits.drop 16).take 4 ++ '-' :: (digits.drop 20).take 12

/-- Without its hyphens a text of thirty-two digits is the digits. -/
theorem filter_hyphenated {digits : List Char} (plain : '-' ∉ digits) (size : digits.length = 32) :
    (hyphenated digits).filter (· != '-') = digits := by
  have hyphen (rest : List Char) : ('-' :: rest).filter (· != '-') = rest.filter (· != '-') := rfl
  have part (start size : Nat) : ((digits.drop start).take size).filter (· != '-') =
      (digits.drop start).take size := by
    apply List.filter_eq_self.mpr
    intro c mem
    apply bne_iff_ne.mpr
    rintro rfl
    exact plain (List.mem_of_mem_drop (List.mem_of_mem_take mem))
  have cut (start size : Nat) : (digits.drop start).take size ++ digits.drop (start + size) =
      digits.drop start := by
    rw [← List.drop_drop, List.take_append_drop]
  have last : (digits.drop 20).take 12 = digits.drop 20 :=
    List.take_of_length_le (Nat.le_of_eq (by rw [List.length_drop, size]))
  have first : (digits.take 8).filter (· != '-') = digits.take 8 := part 0 8
  simp only [hyphenated, List.filter_append, hyphen, first, part, List.append_assoc]
  rw [last, cut 16 4, cut 12 4, cut 8 4, List.take_append_drop]

theorem take_hexBytes (bytes : List UInt8) (k : Nat) :
    (bytes.flatMap hexByte).take (2 * k) = (bytes.take k).flatMap hexByte := by
  induction bytes generalizing k with
  | nil => simp
  | cons byte rest ih =>
    cases k with
    | zero => rfl
    | succ k =>
      rw [List.take_succ_cons, List.flatMap_cons, List.flatMap_cons, ← ih]
      rfl

theorem drop_hexBytes (bytes : List UInt8) (k : Nat) :
    (bytes.flatMap hexByte).drop (2 * k) = (bytes.drop k).flatMap hexByte := by
  induction bytes generalizing k with
  | nil => simp
  | cons byte rest ih =>
    cases k with
    | zero => rfl
    | succ k =>
      rw [List.drop_succ_cons, List.flatMap_cons, ← ih]
      rfl

namespace Uuid

/-- The text of an identifier is its digits with hyphens among them. -/
theorem text_eq (u : Uuid) : u.text = String.ofList (hyphenated (u.bytes.flatMap hexByte)) := by
  have group (start size : Nat) : ((u.bytes.flatMap hexByte).drop (2 * start)).take (2 * size) =
      ((u.bytes.drop start).take size).flatMap hexByte := by
    rw [drop_hexBytes, take_hexBytes]
  have first : (u.bytes.flatMap hexByte).take 8 = (u.bytes.take 4).flatMap hexByte := group 0 4
  have second : ((u.bytes.flatMap hexByte).drop 8).take 4 =
    ((u.bytes.drop 4).take 2).flatMap hexByte := group 4 2
  have third : ((u.bytes.flatMap hexByte).drop 12).take 4 =
    ((u.bytes.drop 6).take 2).flatMap hexByte := group 6 2
  have fourth : ((u.bytes.flatMap hexByte).drop 16).take 4 =
    ((u.bytes.drop 8).take 2).flatMap hexByte := group 8 2
  have last : ((u.bytes.flatMap hexByte).drop 20).take 12 =
    ((u.bytes.drop 10).take 6).flatMap hexByte := group 10 6
  rw [hyphenated, first, second, third, fourth, last]
  rfl

/-! ## Texts -/

/-- The characters of a text that are read as digits. -/
def digitsOf (s : String) : List Char :=
  zeroed (s.toList.filter (· != '-'))

/-- Thirty-two hexadecimal digits. -/
def IsDigits (text : List Char) : Prop :=
  text.length = 32 ∧ ∀ c ∈ text, c ∈ hexDigits

instance (text : List Char) : Decidable (IsDigits text) :=
  decidable_of_iff (text.length = 32 ∧ text.all (hexDigits.contains ·) = true) <| by
    rw [List.all_eq_true]
    simp only [List.contains_iff_mem]
    rfl

variable {s : String} {u : Uuid}

/-- The bytes without hyphens are the bytes of the characters without hyphens. -/
theorem ofText?_eq (s : String) : ofText? s =
    if (encoded (s.toList.filter (· != '-'))).length = 32 then
      (pairBytes? (encoded (s.toList.filter (· != '-')))).bind ofBytes?
    else none := by
  have hyphen : IsAscii '-' := by decide
  rw [ofText?, toUTF8_eq]
  simp only [filter_encoded hyphen]

theorem ofBytes?_eq_some_iff {bytes : List UInt8} : ofBytes? bytes = some u ↔ bytes = u.bytes := by
  unfold ofBytes?
  constructor
  · intro h
    split at h
    · cases h
      rfl
    · cases h
  · rintro rfl
    rw [dif_pos u.size_eq]

/-- **An identifier is read just from the texts of its digits.** -/
theorem ofText?_eq_some_iff : ofText? s = some u ↔
    (∀ c ∈ digitsOf s, c ∈ hexDigits) ∧ u.bytes.flatMap hexByte = (digitsOf s).map Char.toLower := by
  rw [ofText?_eq]
  constructor
  · intro h
    split at h
    · obtain ⟨bytes, read, made⟩ := Option.bind_eq_some_iff.mp h
      obtain rfl := ofBytes?_eq_some_iff.mp made
      exact pairBytes?_eq_some_iff.mp read
    · cases h
  · intro digits
    -- Sixteen bytes have thirty-two digits, each of one byte.
    have size : (encoded (s.toList.filter (· != '-'))).length = 32 := by
      have both := congrArg List.length digits.2
      rw [length_hexBytes, u.size_eq, List.length_map, digitsOf, length_zeroed] at both
      rw [encoded_of_ascii (isAscii_of_zeroed digits.1), List.length_map, ← both]
    rw [if_pos size, pairBytes?_eq_some_iff.mpr digits]
    exact ofBytes?_eq_some_iff.mpr rfl

/-- A text is read just if it has thirty-two digits. -/
theorem exists_ofText?_iff : (∃ u, ofText? s = some u) ↔ IsDigits (digitsOf s) := by
  constructor
  · rintro ⟨u, read⟩
    obtain ⟨all, digits⟩ := ofText?_eq_some_iff.mp read
    have size := congrArg List.length digits
    rw [length_hexBytes, u.size_eq, List.length_map] at size
    exact ⟨size.symm, all⟩
  · rintro ⟨size, all⟩
    have even : (s.toList.filter (· != '-')).length = 32 := by rwa [← length_zeroed]
    obtain ⟨bytes, read⟩ := exists_pairBytes? all (by rw [even])
    have digits := (pairBytes?_eq_some_iff.mp read).2
    have sixteen : bytes.length = 16 := by
      have both := congrArg List.length digits
      rw [length_hexBytes, List.length_map, length_zeroed, even] at both
      omega
    exact ⟨⟨bytes, sixteen⟩, ofText?_eq_some_iff.mpr ⟨all, digits⟩⟩

/-- An identifier is read from its text. -/
theorem ofText?_text (u : Uuid) : ofText? u.text = some u := by
  have all : ∀ c ∈ u.bytes.flatMap hexByte, c ∈ hexDigits ∧ c.toLower = c :=
    mem_hexDigits_of_mem_hexBytes
  have plus : '+' ∉ u.bytes.flatMap hexByte := fun mem => absurd (all _ mem).1 (by decide)
  have hyphen : '-' ∉ u.bytes.flatMap hexByte := fun mem => absurd (all _ mem).1 (by decide)
  have size : (u.bytes.flatMap hexByte).length = 32 := by rw [length_hexBytes, u.size_eq]
  have digits : digitsOf u.text = u.bytes.flatMap hexByte := by
    rw [digitsOf, u.text_eq, String.toList_ofList, filter_hyphenated hyphen size,
      zeroed_of_not_mem plus]
  apply ofText?_eq_some_iff.mpr
  rw [digits]
  refine ⟨fun c mem => (all c mem).1, ?_⟩
  rw [List.map_congr_left fun c mem => (all c mem).2, List.map_id']

end Uuid

/-! ## Main result -/

/-- A text is made the identifier that is read from it. -/
theorem Value.coerce_uuid_text_eq (s : String) : coerce .uuid (.text s) =
    match Uuid.ofText? s with
    | some u => .ok (.uuid u)
    | none => .error ⟨"UUID", (Value.text s).describe, "malformed UUID text"⟩ := by
  have start : coerce .uuid (.text s) = coerceUuid (.text s) := if_neg Bool.false_ne_true
  cases read : Uuid.ofText? s with
  | some u => rw [start, coerceUuid, read]
  | none => rw [start, coerceUuid, read]; rfl

/-- **A text is made an identifier just if there are thirty-two hexadecimal digits besides its hyphens, and
the identifier is rendered with the same digits in lower case; a plus in front of a pair counts as a zero.**
Every other text is malformed. Without the plus these are just the texts of thirty-two hexadecimal
digits. -/
theorem Value.coerce_uuid_text_iff (s : String) :
    (Uuid.IsDigits (Uuid.digitsOf s) → ∃ u, coerce .uuid (.text s) = .ok (.uuid u) ∧
      (Value.uuid u).toJson =
        .string (String.ofList (hyphenated ((Uuid.digitsOf s).map Char.toLower)))) ∧
    (¬Uuid.IsDigits (Uuid.digitsOf s) →
      coerce .uuid (.text s) = .error ⟨"UUID", (Value.text s).describe, "malformed UUID text"⟩) ∧
    (Uuid.IsDigits (s.toList.filter (· != '-')) ↔
      (∃ u, coerce .uuid (.text s) = .ok (.uuid u)) ∧ '+' ∉ s.toList) ∧
    ('+' ∉ s.toList → Uuid.digitsOf s = s.toList.filter (· != '-')) := by
  have taken : (∃ u, coerce .uuid (.text s) = .ok (.uuid u)) ↔ ∃ u, Uuid.ofText? s = some u := by
    rw [coerce_uuid_text_eq]
    cases Uuid.ofText? s <;> simp
  have plain (none : '+' ∉ s.toList) : Uuid.digitsOf s = s.toList.filter (· != '-') := by
    apply zeroed_of_not_mem
    exact fun mem => none (List.mem_filter.mp mem).1
  refine ⟨?_, ?_, ?_, plain⟩
  · intro digits
    obtain ⟨u, read⟩ := Uuid.exists_ofText?_iff.mpr digits
    refine ⟨u, ?_, ?_⟩
    · rw [coerce_uuid_text_eq, read]
    · rw [toJson, u.text_eq, (Uuid.ofText?_eq_some_iff.mp read).2]
  · intro other
    have none : Uuid.ofText? s = none := by
      apply Option.eq_none_iff_forall_not_mem.mpr
      intro u read
      exact other (Uuid.exists_ofText?_iff.mp ⟨u, read⟩)
    rw [coerce_uuid_text_eq, none]
  · rw [taken, Uuid.exists_ofText?_iff]
    constructor
    · intro digits
      have none : '+' ∉ s.toList := by
        intro mem
        have digit := digits.2 '+' (List.mem_filter.mpr ⟨mem, rfl⟩)
        revert digit
        decide
      rw [plain none]
      exact ⟨digits, none⟩
    · rintro ⟨digits, none⟩
      rwa [plain none] at digits

/-- Digits of either case are read between hyphens in any place, and so is a plus in front of a pair; a digit
too few is malformed. -/
theorem Value.coerce_uuid_text_iff_plus :
    (∃ u, coerce .uuid (.text "+fAB-+000000000000000000000000000") = .ok (.uuid u) ∧
      (Value.uuid u).toJson = .string "0fab0000-0000-0000-0000-000000000000") ∧
    '+' ∉ "67E55044-10b1-426f-9247-bb680e5fe0c8".toList ∧
    (∃ u, coerce .uuid (.text "67E55044-10b1-426f-9247-bb680e5fe0c8") = .ok (.uuid u)) ∧
    coerce .uuid (.text "67e55044-10b1-426f-9247-bb680e5fe0c") =
      .error ⟨"UUID", "TEXT '67e55044-10b1-426f-9247-bb680e5fe0c'", "malformed UUID text"⟩ := by
  obtain ⟨odd, -⟩ := coerce_uuid_text_iff "+fAB-+000000000000000000000000000"
  obtain ⟨-, -, digits, -⟩ := coerce_uuid_text_iff "67E55044-10b1-426f-9247-bb680e5fe0c8"
  obtain ⟨-, few, -⟩ := coerce_uuid_text_iff "67e55044-10b1-426f-9247-bb680e5fe0c"
  obtain ⟨u, read, shown⟩ := odd (by decide)
  have upper := digits.mp (by decide)
  refine ⟨⟨u, read, shown.trans ?_⟩, upper.2, upper.1, few (by decide)⟩
  exact congrArg Json.string (by decide)

end Orm
