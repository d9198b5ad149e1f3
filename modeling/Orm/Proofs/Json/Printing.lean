import Mathlib.Data.List.Basic
import Orm.Json.Document
import Orm.Proofs.Text.Digits

/-!
# `Proofs.Json.Printing` — the compact text of a value is read back

Reading undoes printing piece by piece. A piece is read the same whatever stands after it, except
that digits may go on: a number is only read back in front of a text that is `Closed`, and inside a
compact text every value stands in front of such a one. The fuel that reading a value takes is at
most the number of its characters, since every step of the reader that enters a value, an item or a
member leaves at least one character behind.

Floats are left out. Their text is the shortest one that rounds to them, and nothing here says how
many digits that takes.

## Contents
- **Numbers.** `decimal_canonical`, `Closed`, `readNumber_decimal`, `natural?_ofInt`.
- **Strings.** `escape_cases`; `readUnits_escape`, one unit for every character; `readString_escape`.
- **Values.** `Json.FloatFree`, `Json.Legible`, with a lemma for each kind of value.
- **Main result.** `Json.parse_print`.
-/

namespace Orm

open Text

/-! ## Numbers -/

/-- Only the digits of zero start with a zero. -/
theorem head?_decimal {n : Nat} (pos : 0 < n) : (decimal n).head? ≠ some '0' := by
  induction n using Nat.strongRecOn with
  | ind n ih =>
    unfold decimal
    by_cases small : n < 10
    · rw [Nat.toDigits_of_lt_base small]
      intro zero
      have := Nat.digitChar_eq_zero.mp (Option.some.inj zero)
      omega
    · rw [Nat.toDigits_of_base_le (by decide) (by omega),
        List.head?_append_of_ne_nil _ Nat.toDigits_ne_nil]
      exact ih (n / 10) (by omega) (by omega)

/-- The digits of a number are those that the grammar allows: more than one only without a zero in
front. -/
theorem decimal_canonical (n : Nat) :
    ¬((decimal n).head? = some '0' ∧ 1 < (decimal n).length) := by
  rintro ⟨zero, long⟩
  by_cases pos : 0 < n
  · exact head?_decimal pos zero
  · obtain rfl : n = 0 := by omega
    exact absurd long (by decide)

/-- A text with which a value ends: nothing, or the end of an item, an array or an object. -/
def Closed (text : List Char) : Prop :=
  text = [] ∨ ∃ rest, text = ',' :: rest ∨ text = ']' :: rest ∨ text = '}' :: rest

@[simp] theorem closed_nil : Closed [] := .inl rfl

@[simp] theorem closed_comma (rest : List Char) : Closed (',' :: rest) := .inr ⟨rest, .inl rfl⟩

@[simp] theorem closed_bracket (rest : List Char) : Closed (']' :: rest) :=
  .inr ⟨rest, .inr (.inl rfl)⟩

@[simp] theorem closed_brace (rest : List Char) : Closed ('}' :: rest) :=
  .inr ⟨rest, .inr (.inr rfl)⟩

/-- Digits are read up to where a value ends. -/
theorem readSomeDigits_append {digits rest : List Char} (some_digit : digits ≠ [])
    (all : ∀ c ∈ digits, c.isDigit = true) (closed : Closed rest) :
    readSomeDigits (digits ++ rest) = some (digits, rest) := by
  have taken : (digits ++ rest).takeWhile Char.isDigit = digits := by
    rw [List.takeWhile_append_of_pos all]
    rcases closed with rfl | ⟨_, rfl | rfl | rfl⟩ <;> simp
  have left : (digits ++ rest).dropWhile Char.isDigit = rest := by
    rw [List.dropWhile_append_of_pos all]
    rcases closed with rfl | ⟨_, rfl | rfl | rfl⟩ <;> simp
  simp [readSomeDigits, taken, left, some_digit]

/-- The digits of a number are read as its spelling, in front of the end of a value. -/
theorem readNumber_decimal (negative : Bool) (n : Nat) {rest : List Char} (closed : Closed rest) :
    readNumber negative (decimal n ++ rest) =
      some (⟨negative, decimal n, none, none⟩, rest) := by
  have digits : readSomeDigits (decimal n ++ rest) = some (decimal n, rest) :=
    readSomeDigits_append (decimal_ne_nil n) (fun _ => isDigit_of_mem_decimal) closed
  have fraction : readFraction rest = some (none, rest) := by
    rcases closed with rfl | ⟨_, rfl | rfl | rfl⟩ <;> rfl
  have exponent : readExponentPart rest = some (none, rest) := by
    rcases closed with rfl | ⟨_, rfl | rfl | rfl⟩ <;> rfl
  simp [readNumber, digits, fraction, exponent, decimal_canonical n]

/-- A natural number in range is the value of its spelling. -/
theorem natural?_ofInt {n limit : Nat} (gathered : n ≤ maxGathered) (h : n ≤ limit) :
    ∃ text, Document.ofInt n = .number text ∧ text.natural? limit = some n := by
  refine ⟨_, rfl, ?_⟩
  have sign : ¬(n : Int) < 0 := by omega
  simp [NumberText.natural?, NumberText.value?, readDigits_decimal, sign, gathered, h]

/-! ## Strings -/

/-- A unit of a string stands for a character. -/
def StringUnit.Means (u : StringUnit) (c : Char) : Prop :=
  ∀ units, joinUnits (u :: units) = (joinUnits units).map (c :: ·)

theorem StringUnit.means_char (c : Char) : (StringUnit.char c).Means c :=
  fun _ => rfl

/-- A code unit below the surrogates stands for its character, whatever follows it. -/
theorem StringUnit.means_code {c : Char} (low : c.toNat < 0xd800) :
    (StringUnit.code c.toNat).Means c := by
  have noHigh : ¬(0xd800 ≤ c.toNat ∧ c.toNat < 0xdc00) := by omega
  have noLow : ¬(0xdc00 ≤ c.toNat ∧ c.toNat < 0xe000) := by omega
  have noHalf : ¬(0xd800 ≤ c.toNat ∧ c.toNat < 0xe000) := by omega
  intro units
  have written : joinUnits (.code c.toNat :: units) =
      (joinUnits units).map (Char.ofNat c.toNat :: ·) := by
    -- Two codes in a row are looked at together, as they may be a pair of surrogates.
    rcases units with _ | ⟨_ | low, more⟩
    · exact if_neg noHalf
    · exact if_neg noHalf
    · exact (if_neg noHigh).trans (if_neg noLow)
  rw [written, Char.ofNat_toNat]

/-- The two digits of a control character are read as its code. -/
theorem hexUnit?_hexByte {n : Nat} (control : n < 32) :
    hexUnit? '0' '0' (Nat.digitChar ((UInt8.ofNat n).toNat / 16))
      (Nat.digitChar ((UInt8.ofNat n).toNat % 16)) = some n := by
  revert n
  decide

/-- A backslash and a letter are read as the character behind them. -/
theorem readUnits_short {letter c : Char} (h : shortEscape? letter = some c) (rest : List Char) :
    readUnits ('\\' :: letter :: rest) =
      (readUnits rest).map fun p => (.char c :: p.1, p.2) := by
  have notCode : letter ≠ 'u' := by
    rintro rfl
    simp [shortEscape?] at h
  rw [readUnits]
  · cases readUnits rest <;> simp [h]
  · rintro _ _ _ _ _ rfl
    exact absurd rfl notCode

/-- A character that needs no escape is read as itself. -/
theorem readUnits_plain {c : Char} (quote : c ≠ '\x22') (backslash : c ≠ '\\')
    (printable : ¬c.toNat < 32) (rest : List Char) :
    readUnits (c :: rest) = (readUnits rest).map fun p => (.char c :: p.1, p.2) := by
  rw [readUnits]
  · cases readUnits rest <;> simp [quote, backslash, printable]
  · rintro _ _ _ _ _ rfl
    exact absurd rfl backslash
  · rintro _ _ rfl
    exact absurd rfl backslash

/-- A character is written as a letter after a backslash, by its code, or as it is. -/
theorem escape_cases (c : Char) :
    (∃ letter, Json.escape c = ['\\', letter] ∧ shortEscape? letter = some c) ∨
      (c.toNat < 32 ∧
        Json.escape c = '\\' :: 'u' :: '0' :: '0' :: hexByte (UInt8.ofNat c.toNat)) ∨
      (c ≠ '\x22' ∧ c ≠ '\\' ∧ ¬c.toNat < 32 ∧ Json.escape c = [c]) := by
  by_cases quote : c = '\x22'
  · exact .inl ⟨'\x22', by rw [quote]; rfl, by rw [quote]; rfl⟩
  by_cases backslash : c = '\\'
  · exact .inl ⟨'\\', by rw [backslash]; rfl, by rw [backslash]; rfl⟩
  by_cases b : c = '\x08'
  · exact .inl ⟨'b', by rw [b]; rfl, by rw [b]; rfl⟩
  by_cases f : c = '\x0c'
  · exact .inl ⟨'f', by rw [f]; rfl, by rw [f]; rfl⟩
  by_cases n : c = '\n'
  · exact .inl ⟨'n', by rw [n]; rfl, by rw [n]; rfl⟩
  by_cases r : c = '\r'
  · exact .inl ⟨'r', by rw [r]; rfl, by rw [r]; rfl⟩
  by_cases t : c = '\t'
  · exact .inl ⟨'t', by rw [t]; rfl, by rw [t]; rfl⟩
  right
  unfold Json.escape
  rw [if_neg quote, if_neg backslash, if_neg b, if_neg f, if_neg n, if_neg r, if_neg t]
  by_cases control : c.toNat < 32
  · exact .inl ⟨control, if_pos control⟩
  · exact .inr ⟨quote, backslash, control, if_neg control⟩

/-- Every character of a string is written so that it is read as one unit that stands for it. -/
theorem readUnits_escape (c : Char) :
    ∃ u : StringUnit, u.Means c ∧ ∀ rest, readUnits (Json.escape c ++ rest) =
      (readUnits rest).map fun p => (u :: p.1, p.2) := by
  obtain ⟨letter, text, short⟩ | ⟨control, text⟩ | ⟨quote, backslash, printable, text⟩ :=
    escape_cases c
  · rw [text]
    exact ⟨.char c, StringUnit.means_char c, readUnits_short short⟩
  · rw [text]
    refine ⟨.code c.toNat, StringUnit.means_code (by omega), fun rest => ?_⟩
    simp only [hexByte, List.cons_append, List.nil_append]
    rw [readUnits, hexUnit?_hexByte control]
    cases readUnits rest <;> rfl
  · rw [text]
    exact ⟨.char c, StringUnit.means_char c, readUnits_plain quote backslash printable⟩

theorem quote_append (s : String) (rest : List Char) :
    Json.quote s ++ rest = '\x22' :: (s.toList.flatMap Json.escape ++ '\x22' :: rest) := by
  simp [Json.quote]

/-- A quoted string is read as what it quotes. -/
theorem readString_escape (s : String) (rest : List Char) :
    readString (s.toList.flatMap Json.escape ++ '\x22' :: rest) = some (some s, rest) := by
  have units (l : List Char) : ∃ units, joinUnits units = some l ∧
      readUnits (l.flatMap Json.escape ++ '\x22' :: rest) = some (units, rest) := by
    induction l with
    | nil => exact ⟨[], rfl, by simp [readUnits]⟩
    | cons c l ih =>
      obtain ⟨units, joined, read⟩ := ih
      obtain ⟨u, means, first⟩ := readUnits_escape c
      refine ⟨u :: units, ?_, ?_⟩
      · rw [means, joined]
        rfl
      · rw [List.flatMap_cons, List.append_assoc, first, read]
        rfl
  obtain ⟨units, joined, read⟩ := units s.toList
  simp [readString, read, joined]

/-! ## Values -/

namespace Json

/-- A value without floats. -/
inductive FloatFree : Json → Prop
  | null : FloatFree .null
  | bool (b : Bool) : FloatFree (.bool b)
  | int (n : Int) : FloatFree (.int n)
  | string (s : String) : FloatFree (.string s)
  | array {items : List Json} (h : ∀ item ∈ items, FloatFree item) : FloatFree (.array items)
  | object {members : List (String × Json)} (h : ∀ m ∈ members, FloatFree m.2) :
      FloatFree (.object members)

/-- A string starts with a quote. -/
theorem readValue_quote (fuel : Nat) (rest : List Char) :
    readValue (fuel + 1) ('\x22' :: rest) =
      (readString rest).map fun p => (.string p.1, p.2) :=
  rfl

theorem readValue_minus (fuel : Nat) (rest : List Char) :
    readValue (fuel + 1) ('-' :: rest) =
      (readNumber true rest).map fun p => (.number p.1, p.2) :=
  rfl

theorem readValue_bracket (fuel : Nat) (rest : List Char) :
    readValue (fuel + 1) ('[' :: rest) =
      match skipBlanks rest with
      | ']' :: rest => some (.array [], rest)
      | rest => (readItems fuel rest).map fun p => (.array p.1, p.2) :=
  rfl

theorem readValue_brace (fuel : Nat) (rest : List Char) :
    readValue (fuel + 1) ('{' :: rest) =
      match skipBlanks rest with
      | '}' :: rest => some (.object [], rest)
      | rest => (readMembers fuel rest).map fun p => (.object p.1, p.2) :=
  rfl

theorem not_blank_of_isDigit {c : Char} (digit : c.isDigit = true) : isJsonBlank c = false := by
  rw [← Bool.not_eq_true]
  intro blank
  simp only [isJsonBlank, Bool.or_eq_true, decide_eq_true_eq] at blank
  rcases blank with ((rfl | rfl) | rfl) | rfl <;> exact absurd digit (by decide)

theorem skipBlanks_of_not {c : Char} (h : isJsonBlank c = false) (rest : List Char) :
    skipBlanks (c :: rest) = c :: rest := by
  simp [skipBlanks, h]

/-- A digit starts a number. -/
theorem readValue_digit {c : Char} (digit : c.isDigit = true) (fuel : Nat) (rest : List Char) :
    readValue (fuel + 1) (c :: rest) =
      (readNumber false (c :: rest)).map fun p => (.number p.1, p.2) := by
  rw [readValue, skipBlanks_of_not (not_blank_of_isDigit digit)]
  split
  case h_8 => rfl
  -- No other kind of value starts with a digit.
  all_goals
    next same =>
      cases same
      exact absurd digit (by decide)

/-- The text of a value is read as its document wherever a value may end, with one unit of fuel for
every character. Its first character is neither a blank nor the end of an array. -/
structure Legible (j : Json) : Prop where
  starts : ∃ c tail, j.chars = c :: tail ∧ isJsonBlank c = false ∧ c ≠ ']'
  read : ∀ fuel rest, Closed rest → j.chars.length ≤ fuel →
    readValue fuel (j.chars ++ rest) = some (Document.ofJson j, rest)

/-- A value is legible when it is read with any fuel for its first character. -/
theorem Legible.of_head {j : Json} {c : Char} {tail : List Char} (text : j.chars = c :: tail)
    (blank : isJsonBlank c = false) (notEnd : c ≠ ']')
    (h : ∀ fuel rest, Closed rest → tail.length ≤ fuel →
      readValue (fuel + 1) (c :: (tail ++ rest)) = some (Document.ofJson j, rest)) :
    j.Legible where
  starts := ⟨c, tail, text, blank, notEnd⟩
  read := by
    rintro (_ | fuel) rest closed enough
    · simp [text] at enough
    · rw [text]
      exact h fuel rest closed (by simpa [text] using enough)

theorem legible_null : Legible .null :=
  .of_head rfl rfl (by decide) fun _ _ _ _ => rfl

theorem legible_bool (b : Bool) : Legible (.bool b) := by
  cases b
  · exact .of_head rfl rfl (by decide) fun _ _ _ _ => rfl
  · exact .of_head rfl rfl (by decide) fun _ _ _ _ => rfl

theorem legible_string (s : String) : Legible (.string s) := by
  have text : (Json.string s).chars = '\x22' :: (s.toList.flatMap escape ++ ['\x22']) := rfl
  refine .of_head text rfl (by decide) fun fuel rest _ _ => ?_
  rw [readValue_quote, List.append_assoc, List.singleton_append, readString_escape]
  rfl

theorem legible_int (n : Int) : Legible (.int n) := by
  by_cases negative : n < 0
  · have text : (Json.int n).chars = '-' :: decimal n.natAbs := by simp [chars, signed, negative]
    refine .of_head text rfl (by decide) fun fuel rest closed _ => ?_
    rw [readValue_minus, readNumber_decimal _ _ closed]
    simp [Document.ofJson, Document.ofInt, negative]
  · obtain ⟨c, tail, digits⟩ := List.exists_cons_of_ne_nil (decimal_ne_nil n.natAbs)
    have digit : c.isDigit = true := isDigit_of_mem_decimal (digits ▸ List.mem_cons_self)
    have text : (Json.int n).chars = c :: tail := by simp [chars, signed, negative, digits]
    refine .of_head text (not_blank_of_isDigit digit) ?_ fun fuel rest closed _ => ?_
    · rintro rfl
      exact absurd digit (by decide)
    · rw [readValue_digit digit, ← List.cons_append, ← digits, readNumber_decimal _ _ closed]
      simp [Document.ofJson, Document.ofInt, negative]

/-! ### Arrays -/

theorem itemChars_singleton (item : Json) : itemChars [item] = item.chars ++ [']'] := by
  simp [itemChars]

theorem itemChars_cons_cons (item next : Json) (more : List Json) :
    itemChars (item :: next :: more) = item.chars ++ ',' :: itemChars (next :: more) := by
  simp [itemChars]

/-- The items of an array are read up to its end. -/
theorem readItems_itemChars {items : List Json} (some_item : items ≠ [])
    (h : ∀ item ∈ items, Legible item) (fuel : Nat) (rest : List Char)
    (enough : (itemChars items).length ≤ fuel) :
    readItems fuel (itemChars items ++ rest) = some (Document.ofItems items, rest) := by
  induction items generalizing fuel with
  | nil => exact absurd rfl some_item
  | cons item more ih =>
    have first := h item List.mem_cons_self
    cases more with
    | nil =>
      rw [itemChars_singleton] at enough ⊢
      obtain ⟨fuel, rfl⟩ : ∃ n, fuel = n + 1 := ⟨fuel - 1, by simp at enough; omega⟩
      have read := first.read fuel (']' :: rest) (closed_bracket _) (by simpa using enough)
      rw [List.append_assoc, List.singleton_append, readItems, read]
      rfl
    | cons next more =>
      rw [itemChars_cons_cons] at enough ⊢
      simp only [List.length_append, List.length_cons] at enough
      obtain ⟨fuel, rfl⟩ : ∃ n, fuel = n + 1 := ⟨fuel - 1, by omega⟩
      have read := first.read fuel (',' :: (itemChars (next :: more) ++ rest)) (closed_comma _)
        (by omega)
      have others := ih (List.cons_ne_nil _ _)
        (fun item mem => h item (List.mem_cons_of_mem _ mem)) fuel (by omega)
      rw [List.append_assoc, List.cons_append, readItems, read]
      have comma : isJsonBlank ',' = false := by decide
      simp only [Option.bind_eq_bind, Option.bind_some, skipBlanks_of_not comma, others]
      rfl

/-- An array of legible items is legible. -/
theorem legible_array {items : List Json} (h : ∀ item ∈ items, Legible item) :
    Legible (.array items) := by
  have text : (Json.array items).chars = '[' :: itemChars items := rfl
  refine .of_head text rfl (by decide) fun fuel rest _ enough => ?_
  cases items with
  | nil => rfl
  | cons item more =>
    have read := readItems_itemChars (List.cons_ne_nil _ _) h fuel rest enough
    obtain ⟨c, tail, first, blank, notEnd⟩ := (h item List.mem_cons_self).starts
    obtain ⟨tail, opens⟩ : ∃ tail, itemChars (item :: more) ++ rest = c :: tail :=
      ⟨_, by rw [itemChars, first]; rfl⟩
    rw [opens] at read ⊢
    rw [readValue_bracket, skipBlanks_of_not blank]
    split
    next same => exact absurd (List.cons.inj same).1 notEnd
    next => exact congrArg (Option.map fun p => (Document.array p.1, p.2)) read

/-! ### Objects -/

/-- After the name of a member comes its value, and then either the end of the object or another
member. -/
theorem readMembers_quote (name : String) (fuel : Nat) (text : List Char) :
    readMembers (fuel + 1) (quote name ++ ':' :: text) = (do
      let (value, rest) ← readValue fuel text
      match skipBlanks rest with
      | '}' :: rest => return ([(some name, value)], rest)
      | ',' :: rest =>
        let (members, rest) ← readMembers fuel rest
        return ((some name, value) :: members, rest)
      | _ => none) := by
  rw [quote_append, readMembers, skipBlanks_of_not rfl]
  simp only [readString_escape]
  rfl

theorem memberChars_singleton (name : String) (value : Json) :
    memberChars [(name, value)] = quote name ++ ':' :: (value.chars ++ ['}']) := by
  simp [memberChars, memberText]

theorem memberChars_cons_cons (name : String) (value : Json) (next : String × Json)
    (more : List (String × Json)) :
    memberChars ((name, value) :: next :: more) =
      quote name ++ ':' :: (value.chars ++ ',' :: memberChars (next :: more)) := by
  simp [memberChars, memberText]

/-- The members of an object are read up to its end. -/
theorem readMembers_memberChars {members : List (String × Json)} (some_member : members ≠ [])
    (h : ∀ m ∈ members, Legible m.2) (fuel : Nat) (rest : List Char)
    (enough : (memberChars members).length ≤ fuel) :
    readMembers fuel (memberChars members ++ rest) = some (Document.ofMembers members, rest) := by
  induction members generalizing fuel with
  | nil => exact absurd rfl some_member
  | cons m more ih =>
    obtain ⟨name, value⟩ := m
    have first : Legible value := h (name, value) List.mem_cons_self
    cases more with
    | nil =>
      rw [memberChars_singleton] at enough ⊢
      simp only [List.length_append, List.length_cons, List.length_nil] at enough
      obtain ⟨fuel, rfl⟩ : ∃ n, fuel = n + 1 := ⟨fuel - 1, by omega⟩
      have read := first.read fuel ('}' :: rest) (closed_brace _) (by omega)
      rw [List.append_assoc, List.cons_append, List.append_assoc, List.singleton_append,
        readMembers_quote, read]
      rfl
    | cons next more =>
      rw [memberChars_cons_cons] at enough ⊢
      simp only [List.length_append, List.length_cons] at enough
      obtain ⟨fuel, rfl⟩ : ∃ n, fuel = n + 1 := ⟨fuel - 1, by omega⟩
      have read := first.read fuel (',' :: (memberChars (next :: more) ++ rest)) (closed_comma _)
        (by omega)
      have others := ih (List.cons_ne_nil _ _)
        (fun m mem => h m (List.mem_cons_of_mem _ mem)) fuel (by omega)
      rw [List.append_assoc, List.cons_append, List.append_assoc, List.cons_append,
        readMembers_quote, read]
      have comma : isJsonBlank ',' = false := by decide
      simp only [Option.bind_eq_bind, Option.bind_some, skipBlanks_of_not comma, others]
      rfl

/-- An object is legible when the values of its members are. -/
theorem legible_object {members : List (String × Json)} (h : ∀ m ∈ members, Legible m.2) :
    Legible (.object members) := by
  have text : (Json.object members).chars = '{' :: memberChars members := rfl
  refine .of_head text rfl (by decide) fun fuel rest _ enough => ?_
  cases members with
  | nil => rfl
  | cons m more =>
    have read := readMembers_memberChars (List.cons_ne_nil _ _) h fuel rest enough
    obtain ⟨tail, opens⟩ : ∃ tail, memberChars (m :: more) ++ rest = '\x22' :: tail :=
      ⟨_, by rw [memberChars, memberText, quote]; rfl⟩
    rw [opens] at read ⊢
    rw [readValue_brace, skipBlanks_of_not rfl]
    exact congrArg (Option.map fun p => (Document.object p.1, p.2)) read

/-! ### All values -/

/-- A value without floats is legible. -/
theorem FloatFree.legible {j : Json} (h : j.FloatFree) : j.Legible := by
  induction h with
  | null => exact legible_null
  | bool b => exact legible_bool b
  | int n => exact legible_int n
  | string s => exact legible_string s
  | array _ ih => exact legible_array ih
  | object _ ih => exact legible_object ih

/-- **The compact text of a value without floats holds the document of the value.** -/
theorem parse_print {j : Json} (h : j.FloatFree) :
    Document.parse j.print = some (Document.ofJson j) := by
  have read := h.legible.read (2 * j.chars.length + 2) [] closed_nil (by omega)
  rw [List.append_nil] at read
  simp [Document.parse, print, String.toList_ofList, read, skipBlanks]

end Json

end Orm
