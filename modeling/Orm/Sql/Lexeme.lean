import Orm.Error

/-!
# `Orm.Sql.Lexeme` — the lexemes of a statement text

A statement text is read in one pass, one character at a time. Single-quoted literals are passed
over whole, a backslash protecting the character after it; outside them the reader finds parameter
markers (`?` and `:name`, but not the cast `::`) and references (dotted identifiers in braces). All
else is plain characters.

## Contents
- **Characters.** `isNameStart`, `isNameChar`.
- **Lexemes.** `Lexeme`, `Lexeme.chars`: what a lexeme was read from.
- **The reader.** `Mode`, `step`, `readFrom`, `finish`, `lexemes`.
- **Texts.** `textOf`: the text of a list of lexemes.
-/

namespace Orm.Sql

open Text

/-! ## Characters -/

/-- Whether a name may start with the character: an ASCII letter or an underscore. -/
def isNameStart (c : Char) : Bool :=
  c.isAlpha || c == '_'

/-- Whether a name may go on with the character: an ASCII letter or digit or an underscore. -/
def isNameChar (c : Char) : Bool :=
  c.isAlphanum || c == '_'

/-! ## Lexemes -/

/-- A piece of a statement text. -/
inductive Lexeme where
  | char (c : Char)
  /-- A literal with its quotes. -/
  | literal (text : List Char)
  | positional
  /-- A named marker, without the colon. -/
  | named (name : List Char)
  /-- A reference, without the braces. -/
  | reference (name : List Char)
  deriving DecidableEq, Repr

/-- What a lexeme is read from. -/
def Lexeme.chars : Lexeme → List Char
  | .char c => [c]
  | .literal text => text
  | .positional => ['?']
  | .named name => ':' :: name
  | .reference name => '{' :: name ++ ['}']

/-- The text that lexemes are read from. -/
def textOf (lexemes : List Lexeme) : List Char :=
  lexemes.flatMap Lexeme.chars

/-- Texts add up. -/
@[simp]
theorem textOf_append (a b : List Lexeme) : textOf (a ++ b) = textOf a ++ textOf b := by
  simp [textOf]

/-! ## The reader -/

/-- What the reader is in the middle of. The characters read so far are kept in reverse. -/
inductive Mode where
  | plain
  /-- A colon was read that may begin a marker. -/
  | colon
  | name (read : List Char)
  | literal (read : List Char)
  /-- The next character of the literal is protected. -/
  | escape (read : List Char)
  /-- A brace was read, and a name must start here. -/
  | segmentStart (read : List Char)
  /-- A brace was read, and names up to here. -/
  | segment (read : List Char)
  deriving DecidableEq, Repr

/-- The characters that a mode holds back. -/
def Mode.held : Mode → List Char
  | .plain => []
  | .colon => [':']
  | .name read => ':' :: read.reverse
  | .literal read | .escape read => read.reverse
  | .segmentStart read | .segment read => '{' :: read.reverse

/-- One character outside of everything. -/
def stepPlain (c : Char) : List Lexeme × Mode :=
  if c = '\x27' then ([], .literal [c])
  else if c = '?' then ([.positional], .plain)
  else if c = ':' then ([], .colon)
  else if c = '{' then ([], .segmentStart [])
  else ([.char c], .plain)

/-- What was held back turns out to be plain; the character is read afresh. -/
def stepAfter (plain : List Char) (c : Char) : List Lexeme × Mode :=
  let next := stepPlain c
  (plain.map .char ++ next.1, next.2)

/-- One character: the lexemes that are now complete, and the mode after it. -/
def step (mode : Mode) (c : Char) : List Lexeme × Mode :=
  match mode with
  | .plain => stepPlain c
  | .colon =>
    if c = ':' then ([.char ':', .char ':'], .plain)
    else if isNameStart c then ([], .name [c])
    else stepAfter [':'] c
  | .name read =>
    if isNameChar c then ([], .name (c :: read))
    else
      let next := stepPlain c
      (.named read.reverse :: next.1, next.2)
  | .literal read =>
    if c = '\\' then ([], .escape (c :: read))
    else if c = '\x27' then ([.literal (c :: read).reverse], .plain)
    else ([], .literal (c :: read))
  | .escape read => ([], .literal (c :: read))
  | .segmentStart read =>
    if isNameStart c then ([], .segment (c :: read))
    else stepAfter ('{' :: read.reverse) c
  | .segment read =>
    if isNameChar c then ([], .segment (c :: read))
    else if c = '.' then ([], .segmentStart (c :: read))
    else if c = '}' then ([.reference read.reverse], .plain)
    else stepAfter ('{' :: read.reverse) c

/-- The lexemes of a text from a mode on, and the mode at its end. -/
def readFrom (mode : Mode) : List Char → List Lexeme × Mode
  | [] => ([], mode)
  | c :: rest =>
    let now := step mode c
    let later := readFrom now.2 rest
    (now.1 ++ later.1, later.2)

/-- The lexemes that the end of the text completes; a literal that is open holds this text. -/
def finish : Mode → Except (List Char) (List Lexeme)
  | .plain => .ok []
  | .colon => .ok [.char ':']
  | .name read => .ok [.named read.reverse]
  | .literal read | .escape read => .error read.reverse
  | .segmentStart read | .segment read => .ok (('{' :: read.reverse).map .char)

/-- The lexemes of a text. It fails when a literal is not closed, at the byte where it starts. -/
def lexemes (text : List Char) : Except Error (List Lexeme) :=
  let read := readFrom .plain text
  match finish read.2 with
  | .ok last => .ok (read.1 ++ last)
  | .error open_ => .error (.openLiteral (byteSize text - byteSize open_))

/-! ## Nothing is lost -/

theorem textOf_map_char (cs : List Char) : textOf (cs.map .char) = cs := by
  induction cs with
  | nil => rfl
  | cons c rest ih =>
    rw [List.map_cons, textOf, List.flatMap_cons, ← textOf, ih]
    rfl

theorem textOf_stepPlain (c : Char) : textOf (stepPlain c).1 ++ (stepPlain c).2.held = [c] := by
  simp only [stepPlain]
  split
  · simp [textOf, Mode.held]
  split
  · simp_all [textOf, Mode.held, Lexeme.chars]
  split
  · simp_all [textOf, Mode.held]
  split
  · simp_all [textOf, Mode.held]
  · simp [textOf, Mode.held, Lexeme.chars]

theorem textOf_stepAfter (plain : List Char) (c : Char) :
    textOf (stepAfter plain c).1 ++ (stepAfter plain c).2.held = plain ++ [c] := by
  simp only [stepAfter, textOf_append, textOf_map_char, List.append_assoc, textOf_stepPlain]

/-- A step neither drops nor invents a character. -/
theorem textOf_step (mode : Mode) (c : Char) :
    textOf (step mode c).1 ++ (step mode c).2.held = mode.held ++ [c] := by
  cases mode with
  | plain => simpa [step, Mode.held] using textOf_stepPlain c
  | colon =>
    simp only [step]
    split
    · simp_all [textOf, Mode.held, Lexeme.chars]
    split
    · simp [textOf, Mode.held]
    · simpa [Mode.held] using textOf_stepAfter [':'] c
  | name read =>
    simp only [step]
    split
    · simp [textOf, Mode.held]
    · simp only [textOf, List.flatMap_cons, List.append_assoc]
      rw [← textOf, textOf_stepPlain]
      rfl
  | literal read =>
    simp only [step]
    split
    · simp [textOf, Mode.held]
    split
    · simp [textOf, Mode.held, Lexeme.chars]
    · simp [textOf, Mode.held]
  | escape read => simp [step, textOf, Mode.held]
  | segmentStart read =>
    simp only [step]
    split
    · simp [textOf, Mode.held]
    · simpa [Mode.held] using textOf_stepAfter ('{' :: read.reverse) c
  | segment read =>
    simp only [step]
    split
    · simp [textOf, Mode.held]
    split
    · simp [textOf, Mode.held]
    split
    · simp_all [textOf, Mode.held, Lexeme.chars]
    · simpa [Mode.held] using textOf_stepAfter ('{' :: read.reverse) c

/-- What has been read is the text, up to what is held back. -/
theorem textOf_readFrom (mode : Mode) (text : List Char) :
    textOf (readFrom mode text).1 ++ (readFrom mode text).2.held = mode.held ++ text := by
  induction text generalizing mode with
  | nil => simp [readFrom, textOf]
  | cons c rest ih =>
    simp only [readFrom, textOf_append, List.append_assoc, ih]
    rw [← List.append_assoc, textOf_step]
    simp

/-- What the end of the text completes is what was held back. -/
theorem textOf_finish {mode : Mode} {last : List Lexeme} (h : finish mode = .ok last) :
    textOf last = mode.held := by
  cases mode with
  | plain => cases h; rfl
  | colon => cases h; rfl
  | name read => cases h; simp [textOf, Mode.held, Lexeme.chars]
  | literal read => simp [finish] at h
  | escape read => simp [finish] at h
  | segmentStart read => cases h; exact textOf_map_char _
  | segment read => cases h; exact textOf_map_char _

/-- **Nothing is lost.** The lexemes of a text make up the text. -/
theorem textOf_lexemes {text : List Char} {ls : List Lexeme} (h : lexemes text = .ok ls) :
    textOf ls = text := by
  have read := textOf_readFrom .plain text
  simp only [lexemes] at h
  split at h
  · next last hl =>
    rw [← Except.ok.inj h, textOf_append, textOf_finish hl, read]
    rfl
  · simp at h

end Orm.Sql
