/-!
# `Orm.Text.Blank` — blank characters and trimming

A character is blank when Unicode gives it the property `White_Space`. Trimming removes blank
characters from the ends of a text and nothing else, so a no-break space goes and a zero-width
space stays.

## Contents
- **Property table.** `blankRanges`, `isBlank`.
- **Trimming.** `trimStart`, `trim`, and `trimmed` on strings.
-/

namespace Orm.Text

/-! ## The property table -/

/-- Inclusive code point ranges of the property `White_Space`. -/
def blankRanges : List (Nat × Nat) :=
  [(0x09, 0x0d), (0x20, 0x20), (0x85, 0x85), (0xa0, 0xa0), (0x1680, 0x1680), (0x2000, 0x200a),
    (0x2028, 0x2029), (0x202f, 0x202f), (0x205f, 0x205f), (0x3000, 0x3000)]

/-- Whether a character has the property `White_Space`. -/
def isBlank (c : Char) : Bool :=
  blankRanges.any fun range => range.1 ≤ c.toNat && c.toNat ≤ range.2

/-! ## Trimming -/

/-- The text without its leading blanks. -/
def trimStart (text : List Char) : List Char :=
  text.dropWhile isBlank

/-- The text without its leading and trailing blanks. -/
def trim (text : List Char) : List Char :=
  (trimStart (trimStart text).reverse).reverse

/-- `trim` on strings. -/
def trimmed (text : String) : String :=
  String.ofList (trim text.toList)

/-- A text that starts with a character that is not blank keeps its start. -/
theorem trimStart_cons {c : Char} {rest : List Char} (h : isBlank c = false) :
    trimStart (c :: rest) = c :: rest := by
  simp [trimStart, h]

/-- Trimming leaves a text alone that holds no blank. -/
theorem trim_eq_self {text : List Char} (h : ∀ c ∈ text, isBlank c = false) : trim text = text := by
  have start : ∀ t : List Char, (∀ c ∈ t, isBlank c = false) → trimStart t = t := by
    intro t ht
    cases t with
    | nil => rfl
    | cons c rest => exact trimStart_cons (ht c (by simp))
  rw [trim, start text h, start text.reverse (by simpa using h), List.reverse_reverse]

end Orm.Text
