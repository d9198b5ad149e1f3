import Orm.Proofs.Value.Keys

/-!
# `Proofs.Value.Decimals` — keys and decimals that are no integers

A decimal that is no integer of 64 bits has no normal form of its own in a key. It becomes a text, the one
that it is without the blanks around it, and with it shares its normal form. So it shares it with the TEXT of
the same characters, and with no decimal that is written in another way: a sign more, a zero in front or a
zero behind the point make another key of the same number. Of one layout a number has one spelling only, so
two numbers never share a key.

## Contents
- **Integers of 64 bits.** `Value.DenotesBigInt`, `readIntegral?_eq_none_iff`.
- **Normal forms.** `decimalAtom_eq_text_iff`, `keyPart_eq_decimal_iff`, `trimmed_eq_iff`.
- **One value of a key.** `Key.exists_ofValues?`, `Key.ofValues?_replace_iff`.
- **Main result.** `Key.ofValues?_decimals`.
-/

namespace Orm

open Text Number

variable {s t : String}

/-! ## Integers of 64 bits -/

/-- A value stands for an integer of 64 bits. -/
def Value.DenotesBigInt (value : Value) : Prop :=
  ∃ n : Int64, value.Denotes n.toInt

/-- No integer is read from a decimal just if it stands for none of 64 bits. -/
theorem readIntegral?_eq_none_iff : readIntegral? s = none ↔ ¬(Value.decimal s).DenotesBigInt := by
  rw [Option.eq_none_iff_forall_ne_some]
  constructor
  · rintro none ⟨n, denotes⟩
    have range : ScalarType.bigInt.InRange n.toInt := inRange_of_integer? (.bigInt n) rfl
    exact none n.toInt (readIntegral?_eq_some_iff.mpr ⟨denotes, range⟩)
  · intro other n read
    obtain ⟨denotes, low, high⟩ := readIntegral?_eq_some_iff.mp read
    apply other
    refine ⟨Int64.ofInt n, ?_⟩
    rwa [Int64.toInt_ofInt_of_le low (Int.le_sub_one_iff.mp high)]

/-! ## Normal forms -/

/-- Trimming leaves the same text of two just if it leaves the same characters. -/
theorem trimmed_inj : trimmed s = trimmed t ↔ trim s.toList = trim t.toList := by
  rw [trimmed, trimmed, String.ofList_inj]

/-- A decimal becomes a text just if it is no integer of 64 bits, and then the text that it is itself. -/
theorem decimalAtom_eq_text_iff :
    decimalAtom s = .text t ↔ ¬(Value.decimal s).DenotesBigInt ∧ trimmed s = t := by
  rw [← readIntegral?_eq_none_iff]
  unfold decimalAtom
  cases readIntegral? s <;> simp

theorem floatAtom_ne_text {x : Binary64} : floatAtom x ≠ .text t := by
  unfold floatAtom
  split
  · split <;> nofun
  · nofun

namespace Value

/-- What a decimal stands for does not depend on the blanks around it. -/
theorem denotesBigInt_congr (same : trimmed s = trimmed t) :
    (Value.decimal s).DenotesBigInt ↔ (Value.decimal t).DenotesBigInt := by
  simp only [DenotesBigInt, Denotes, trimmed_inj.mp same]

/-- **A decimal that is no integer of 64 bits shares its normal form with the text of its characters and with
the decimals that differ from it in blanks, and with nothing else.** -/
theorem keyPart_eq_decimal_iff (other : ¬(Value.decimal s).DenotesBigInt) {value : Value} :
    value.keyPart = (Value.decimal s).keyPart ↔
      value = .text (trimmed s) ∨ ∃ t, value = .decimal t ∧ trimmed t = trimmed s := by
  have form : (Value.decimal s).keyPart = .atom (.text (trimmed s)) := by
    rw [keyPart, decimalAtom_eq_text_iff.mpr ⟨other, rfl⟩]
  rw [form]
  cases value with
  | decimal t =>
    rw [keyPart, KeyPart.atom.injEq, decimalAtom_eq_text_iff]
    constructor
    · rintro ⟨-, same⟩
      exact .inr ⟨t, rfl, same⟩
    · rintro (text | ⟨_, decimal, same⟩)
      · cases text
      · cases decimal
        exact ⟨(denotesBigInt_congr same).not.mpr other, same⟩
  | real x => simp [keyPart, floatAtom_ne_text]
  | double x => simp [keyPart, floatAtom_ne_text]
  | _ => simp [keyPart]

end Value

/-- Decimals that are spelled differ in blanks only just if they spell one number in one layout. -/
theorem trimmed_eq_iff {a b : Spelling} (spelled : trim s.toList = a.text)
    (spelled' : trim t.toList = b.text) :
    trimmed s = trimmed t ↔ a.number = b.number ∧ a.layout = b.layout := by
  rw [trimmed_inj, spelled, spelled', Spelling.text_inj, Spelling.eq_iff_number_layout]

/-! ## One value of a key -/

variable {before after values : List Value} {v w : Value} {k : Key}

/-- A value that is not NULL makes a key. -/
theorem Key.exists_ofValues? (mem : v ∈ values) (some_value : v ≠ .null) :
    ∃ k, Key.ofValues? values = some k := by
  apply Option.ne_none_iff_exists'.mp
  intro none
  exact some_value (Key.ofValues?_eq_none_iff.mp none v mem)

/-- A value of a key can be replaced by the values that have its normal form. -/
theorem Key.ofValues?_replace_iff (hk : Key.ofValues? (before ++ w :: after) = some k) :
    Key.ofValues? (before ++ v :: after) = some k ↔ v.keyPart = w.keyPart := by
  constructor
  · intro hk'
    obtain ⟨-, rfl⟩ := Key.ofValues?_eq_some_iff.mp hk
    obtain ⟨-, same⟩ := Key.ofValues?_eq_some_iff.mp hk'
    rw [Key.mk.injEq, List.map_append, List.map_append, List.append_cancel_left_eq, List.map_cons,
      List.map_cons] at same
    exact (List.cons.inj same).1.symm
  · intro same
    rw [← hk]
    simp only [Key.ofValues?, List.map_append, List.map_cons, same]

/-! ## Main result -/

/-- **A decimal that is no integer of 64 bits is told from others by its spelling.** Wherever it stands in a
key, the key is that of the TEXT of its characters too, and of another decimal just if both spell one number
with the same sign, as many digits and as many places. So different numbers have different keys, but one
number has a key for each layout. -/
theorem Key.ofValues?_decimals (other : ¬(Value.decimal s).DenotesBigInt) (before after : List Value) :
    ∃ k, Key.ofValues? (before ++ .decimal s :: after) = some k ∧
      (∀ v, Key.ofValues? (before ++ v :: after) = some k ↔
        v = .text (trimmed s) ∨ ∃ t, v = .decimal t ∧ trimmed t = trimmed s) ∧
      ∀ (t : String) (a b : Spelling), trim s.toList = a.text → trim t.toList = b.text →
        (Key.ofValues? (before ++ .decimal t :: after) = some k ↔
          a.number = b.number ∧ a.layout = b.layout) := by
  have mem : Value.decimal s ∈ before ++ .decimal s :: after :=
    List.mem_append_right before List.mem_cons_self
  obtain ⟨k, hk⟩ := Key.exists_ofValues? mem nofun
  have shared (v : Value) : Key.ofValues? (before ++ v :: after) = some k ↔
      v = .text (trimmed s) ∨ ∃ t, v = .decimal t ∧ trimmed t = trimmed s :=
    (Key.ofValues?_replace_iff hk).trans (Value.keyPart_eq_decimal_iff other)
  refine ⟨k, hk, shared, ?_⟩
  intro t a b spelled spelled'
  rw [shared, ← trimmed_eq_iff spelled spelled']
  constructor
  · rintro (text | ⟨_, same, trimmed⟩)
    · cases text
    · cases same
      exact trimmed.symm
  · intro same
    exact .inr ⟨t, rfl, same.symm⟩

/-- One and a half has another key with a zero behind it, and the key of a TEXT; so has `2 ^ 63`, which is an
integer, but not one of 64 bits. -/
theorem Key.ofValues?_decimals_scales :
    ¬(Value.decimal "1.5").DenotesBigInt ∧ ¬(Value.decimal "9223372036854775808").DenotesBigInt ∧
    (∃ (k : Key) (a b : Spelling), trim "1.5".toList = a.text ∧ trim "1.50".toList = b.text ∧
      a.number = b.number ∧
      Key.ofValues? [.null, .decimal "1.5"] = some k ∧ Key.ofValues? [.null, .decimal " 1.5"] = some k ∧
      Key.ofValues? [.null, .decimal "1.50"] ≠ some k ∧ Key.ofValues? [.null, .text "1.5"] = some k) ∧
    ∃ k, Key.ofValues? [.decimal "9223372036854775808"] = some k ∧
      Key.ofValues? [.decimal "9223372036854775808.0"] ≠ some k ∧
      Key.ofValues? [.text "9223372036854775808"] = some k := by
  have half : ¬(Value.decimal "1.5").DenotesBigInt := readIntegral?_eq_none_iff.mp (by decide)
  have large : ¬(Value.decimal "9223372036854775808").DenotesBigInt :=
    readIntegral?_eq_none_iff.mp (by decide)
  refine ⟨half, large, ?_, ?_⟩
  · obtain ⟨a, spelled, number, layout⟩ : ∃ a : Spelling, trim "1.5".toList = a.text ∧
        a.number = 3 / 2 ∧ a.layout = (none, 1, some 1) := by
      refine ⟨⟨none, ['1'], some ['5'], by decide, List.all_eq_true.mp rfl, List.all_eq_true.mp rfl⟩,
        by decide, ?_, rfl⟩
      show ((1 : ℕ) : ℚ) + (5 : ℕ) / 10 ^ 1 = 3 / 2
      norm_num
    obtain ⟨b, spelled', number', layout'⟩ : ∃ b : Spelling, trim "1.50".toList = b.text ∧
        b.number = 3 / 2 ∧ b.layout = (none, 1, some 2) := by
      refine ⟨⟨none, ['1'], some ['5', '0'], by decide, List.all_eq_true.mp rfl,
        List.all_eq_true.mp rfl⟩, by decide, ?_, rfl⟩
      show ((1 : ℕ) : ℚ) + (50 : ℕ) / 10 ^ 2 = 3 / 2
      norm_num
    obtain ⟨k, hk, shared, alike⟩ := Key.ofValues?_decimals half [.null] []
    refine ⟨k, a, b, spelled, spelled', number.trans number'.symm, hk,
      (shared _).mpr (.inr ⟨_, rfl, by decide⟩), ?_, (shared _).mpr (.inl (congrArg Value.text (by decide)))⟩
    apply (alike "1.50" a b spelled spelled').not.mpr
    rintro ⟨-, same⟩
    rw [layout, layout'] at same
    cases same
  · obtain ⟨k, hk, shared, -⟩ := Key.ofValues?_decimals large [] []
    refine ⟨k, hk, ?_, (shared _).mpr (.inl (congrArg Value.text (by decide)))⟩
    intro same
    obtain text | ⟨_, decimal, trimmed⟩ := (shared _).mp same
    · cases text
    · cases decimal
      revert trimmed
      decide

end Orm
