import Orm.Json.Basic

/-!
# `Orm.Json.Document` — JSON texts as they are written

A document keeps what a value forgets: the spelling of numbers, repeated member names and their
order, and strings whose escapes name half a character. Records are read from documents, so a
member that no record asks for is only required to be well formed.

## Contents
- **Documents.** `NumberText`, `Document`.
- **Reading.** `readString`, `Document.parse`: the grammar, with blanks between tokens and nothing
  after the value.
- **Values.** `NumberText.value?`, `Document.value?` (numbers in range, whole characters, at most
  127 levels), `Json.parse`.
- **Back.** `Document.ofJson`.
-/

namespace Orm

open Number Text

/-! ## Documents -/

/-- The spelling of a number. -/
structure NumberText where
  negative : Bool
  whole : List Char
  fraction : Option (List Char)
  /-- The sign, `true` for minus, and the digits of the exponent. -/
  exponent : Option (Bool × List Char)
  deriving DecidableEq, Repr

/-- A JSON text. A string is absent when it holds half of a surrogate pair. -/
inductive Document where
  | null
  | bool (value : Bool)
  | number (text : NumberText)
  | string (value : Option String)
  | array (items : List Document)
  | object (members : List (Option String × Document))
  deriving Repr, Inhabited

/-! ## Reading -/

/-- The characters allowed between tokens. -/
def isJsonBlank (c : Char) : Bool :=
  c = ' ' || c = '\n' || c = '\t' || c = '\r'

/-- The text after its leading blanks. -/
def skipBlanks (text : List Char) : List Char :=
  text.dropWhile isJsonBlank

/-- The code unit written by four hexadecimal digits. -/
def hexUnit? (a b c d : Char) : Option Nat := do
  let a ← hexValue? a
  let b ← hexValue? b
  let c ← hexValue? c
  let d ← hexValue? d
  return ((a * 16 + b) * 16 + c) * 16 + d

/-- The character behind a one-letter escape. -/
def shortEscape? (c : Char) : Option Char :=
  if c = '\x22' ∨ c = '\\' ∨ c = '/' then some c
  else if c = 'b' then some '\x08'
  else if c = 'f' then some '\x0c'
  else if c = 'n' then some '\n'
  else if c = 'r' then some '\r'
  else if c = 't' then some '\t'
  else none

/-- What stands between quotes: characters, and code units written as numbers. -/
inductive StringUnit where
  | char (c : Char)
  | code (unit : Nat)

/-- The units of a string up to its closing quote, and the text after it. -/
def readUnits : List Char → Option (List StringUnit × List Char)
  | [] => none
  | '\\' :: 'u' :: a :: b :: c :: d :: rest => do
    let unit ← hexUnit? a b c d
    let (units, rest) ← readUnits rest
    return (.code unit :: units, rest)
  | '\\' :: c :: rest => do
    let c ← shortEscape? c
    let (units, rest) ← readUnits rest
    return (.char c :: units, rest)
  | c :: rest =>
    if c = '\x22' then some ([], rest)
    else if c = '\\' ∨ c.toNat < 32 then none
    else do
      let (units, rest) ← readUnits rest
      return (.char c :: units, rest)

/-- The characters of a list of units, if every high surrogate is followed by a low one and no low
one stands alone. -/
def joinUnits : List StringUnit → Option (List Char)
  | [] => some []
  | .char c :: rest => (joinUnits rest).map (c :: ·)
  | .code high :: .code low :: rest =>
    if 0xd800 ≤ high ∧ high < 0xdc00 then
      if 0xdc00 ≤ low ∧ low < 0xe000 then
        (joinUnits rest).map
          (Char.ofNat (0x10000 + (high - 0xd800) * 0x400 + (low - 0xdc00)) :: ·)
      else none
    else if 0xdc00 ≤ high ∧ high < 0xe000 then none
    else (joinUnits (.code low :: rest)).map (Char.ofNat high :: ·)
  | .code unit :: rest =>
    if 0xd800 ≤ unit ∧ unit < 0xe000 then none
    else (joinUnits rest).map (Char.ofNat unit :: ·)

/-- A string after its opening quote. -/
def readString (text : List Char) : Option (Option String × List Char) :=
  (readUnits text).map fun p => ((joinUnits p.1).map String.ofList, p.2)

/-- The digits that a text starts with and what follows them; there must be one. -/
def readSomeDigits (text : List Char) : Option (List Char × List Char) :=
  let digits := text.takeWhile Char.isDigit
  if digits.isEmpty then none else some (digits, text.dropWhile Char.isDigit)

/-- The fraction part of a number, if one starts here. -/
def readFraction : List Char → Option (Option (List Char) × List Char)
  | '.' :: rest => (readSomeDigits rest).map fun p => (some p.1, p.2)
  | text => some (none, text)

/-- The exponent part of a number, if one starts here. -/
def readExponentPart : List Char → Option (Option (Bool × List Char) × List Char)
  | [] => some (none, [])
  | c :: rest =>
    if c = 'e' ∨ c = 'E' then
      let sign := readSign rest
      (readSomeDigits sign.2).map fun p => (some (sign.1, p.1), p.2)
    else some (none, c :: rest)

/-- A number after its sign: no zero in front of other digits. -/
def readNumber (negative : Bool) (text : List Char) : Option (NumberText × List Char) := do
  let (whole, rest) ← readSomeDigits text
  if whole.head? = some '0' ∧ 1 < whole.length then none
  let (fraction, rest) ← readFraction rest
  let (exponent, rest) ← readExponentPart rest
  return (⟨negative, whole, fraction, exponent⟩, rest)

mutual

/-- A value at the start of the text, and what follows it. -/
def readValue : Nat → List Char → Option (Document × List Char)
  | 0, _ => none
  | fuel + 1, text =>
    match skipBlanks text with
    | 'n' :: 'u' :: 'l' :: 'l' :: rest => some (.null, rest)
    | 't' :: 'r' :: 'u' :: 'e' :: rest => some (.bool true, rest)
    | 'f' :: 'a' :: 'l' :: 's' :: 'e' :: rest => some (.bool false, rest)
    | '\x22' :: rest => (readString rest).map fun p => (.string p.1, p.2)
    | '[' :: rest =>
      match skipBlanks rest with
      | ']' :: rest => some (.array [], rest)
      | rest => (readItems fuel rest).map fun p => (.array p.1, p.2)
    | '{' :: rest =>
      match skipBlanks rest with
      | '}' :: rest => some (.object [], rest)
      | rest => (readMembers fuel rest).map fun p => (.object p.1, p.2)
    | '-' :: rest => (readNumber true rest).map fun p => (.number p.1, p.2)
    | rest => (readNumber false rest).map fun p => (.number p.1, p.2)

/-- One item or more up to the end of the array. -/
def readItems : Nat → List Char → Option (List Document × List Char)
  | 0, _ => none
  | fuel + 1, text => do
    let (item, rest) ← readValue fuel text
    match skipBlanks rest with
    | ']' :: rest => return ([item], rest)
    | ',' :: rest =>
      let (items, rest) ← readItems fuel rest
      return (item :: items, rest)
    | _ => none

/-- One member or more up to the end of the object. -/
def readMembers : Nat → List Char → Option (List (Option String × Document) × List Char)
  | 0, _ => none
  | fuel + 1, text =>
    match skipBlanks text with
    | '\x22' :: rest => do
      let (name, rest) ← readString rest
      match skipBlanks rest with
      | ':' :: rest =>
        let (value, rest) ← readValue fuel rest
        match skipBlanks rest with
        | '}' :: rest => return ([(name, value)], rest)
        | ',' :: rest =>
          let (members, rest) ← readMembers fuel rest
          return ((name, value) :: members, rest)
        | _ => none
      | _ => none
    | _ => none

end

/-- The document that a text holds. Every step of the reader that consumes nothing is followed by
one that does, so twice the length of the text is enough fuel. -/
def Document.parse (text : String) : Option Document :=
  let chars := text.toList
  match readValue (2 * chars.length + 2) chars with
  | some (document, rest) => if (skipBlanks rest).isEmpty then some document else none
  | none => none

/-! ## Values -/

/-- The largest integer gathered from the digits of a number. -/
def maxGathered : Nat := 2 ^ 64 - 1

/-- The digits that are appended to `value` while the result stays in range: the result and the
digits left over. -/
def gather (value : Nat) : List Char → Nat × List Char
  | [] => (value, [])
  | d :: rest =>
    let next := value * 10 + digitValue d
    if next ≤ maxGathered then gather next rest else (value, d :: rest)

/-- The magnitude bits of the product of two finite magnitudes. -/
def timesMagnitude (a b : Nat) : Nat :=
  match binary64.read a, binary64.read b with
  | .finite _ m e, .finite _ n k =>
    let p := Reading.ratio m e
    let q := Reading.ratio n k
    binary64.nearest (p.1 * q.1) (p.2 * q.2)
  | _, _ => binary64.infinity

/-- The magnitude bits of the quotient of two finite magnitudes, the second positive. -/
def overMagnitude (a b : Nat) : Nat :=
  match binary64.read a, binary64.read b with
  | .finite _ m e, .finite _ n k =>
    let p := Reading.ratio m e
    let q := Reading.ratio n k
    binary64.nearest (p.1 * q.2) (p.2 * q.1)
  | _, _ => binary64.infinity

/-- The magnitude bits of a power of ten. -/
def powerOfTen (exponent : Nat) : Nat :=
  binary64.nearest (10 ^ exponent) 1

/-- A magnitude scaled by a power of ten, at most `10 ^ 308` at a time and rounded each time.
Magnitudes beyond the format are refused. -/
def scaleByTen : Nat → Nat → Int → Option Nat
  | 0, _, _ => some 0
  | fuel + 1, magnitude, exponent =>
    if exponent.natAbs ≤ 308 then
      if 0 ≤ exponent then
        let scaled := timesMagnitude magnitude (powerOfTen exponent.natAbs)
        if scaled = binary64.infinity then none else some scaled
      else some (overMagnitude magnitude (powerOfTen exponent.natAbs))
    else if magnitude = 0 then some 0
    else if 0 ≤ exponent then none
    else scaleByTen fuel (overMagnitude magnitude (powerOfTen 308)) (exponent + 308)

namespace NumberText

/-- The exponent as an integer; absent when it is beyond 31 bits. -/
def exponent? (t : NumberText) : Option Int :=
  match t.exponent with
  | none => some 0
  | some (negative, digits) =>
    let n := readDigits 0 digits
    if n < 2 ^ 31 then some (if negative then -(n : Int) else n) else none

/-- The number as a float: the digits that fit 64 bits are gathered and rounded, and the result is
scaled by the power of ten that is left. -/
def float? (t : NumberText) : Option Binary64 :=
  let whole := gather 0 t.whole
  let fraction := gather whole.1 (t.fraction.getD [])
  let taken := (t.fraction.getD []).length - fraction.2.length
  let start : Int := (whole.2.length : Int) - (taken : Int)
  let magnitude := match t.exponent? with
    | some e => scaleByTen 4 (binary64.nearest fraction.1 1) (start + e)
    | none =>
      match t.exponent with
      | some (false, _) => if fraction.1 = 0 then some 0 else none
      | _ => some 0
  magnitude.map (Binary64.ofMagnitude t.negative)

/-- The value of a number: an integer when it is written as one and fits 64 bits with or without
sign, and is not minus zero; a float otherwise. -/
def value? (t : NumberText) : Option Json :=
  let n := readDigits 0 t.whole
  if t.fraction.isNone && t.exponent.isNone then
    if t.negative then
      if 0 < n ∧ n ≤ 2 ^ 63 then some (.int (-(n : Int))) else t.float?.map .float
    else if n ≤ maxGathered then some (.int n)
    else t.float?.map .float
  else t.float?.map .float

/-- The value of a number that is written as an integer and lies between zero and `limit`. -/
def natural? (limit : Nat) (t : NumberText) : Option Nat :=
  match t.value? with
  | some (.int n) => if 0 ≤ n ∧ n.toNat ≤ limit then some n.toNat else none
  | _ => none

end NumberText

namespace Document

mutual

/-- The value of a document of at most `levels` levels. -/
def valueWithin : Document → Nat → Option Json
  | .null, _ => some .null
  | .bool b, _ => some (.bool b)
  | .number t, _ => t.value?
  | .string s, _ => s.map .string
  | .array items, levels =>
    match levels with
    | 0 => none
    | levels + 1 => (itemsWithin items levels).map .array
  | .object members, levels =>
    match levels with
    | 0 => none
    | levels + 1 => (membersWithin members levels).map Json.ofMembers
termination_by structural d => d

/-- The values of the items of an array. -/
def itemsWithin : List Document → Nat → Option (List Json)
  | [], _ => some []
  | item :: rest, levels => do
    let item ← valueWithin item levels
    let rest ← itemsWithin rest levels
    return item :: rest
termination_by structural items => items

/-- The values of the members of an object. -/
def membersWithin : List (Option String × Document) → Nat → Option (List (String × Json))
  | [], _ => some []
  | m :: rest, levels => do
    let m ← memberWithin m levels
    let rest ← membersWithin rest levels
    return m :: rest
termination_by structural members => members

/-- The name and value of one member. -/
def memberWithin : Option String × Document → Nat → Option (String × Json)
  | (name, value), levels => do
    let name ← name
    let value ← valueWithin value levels
    return (name, value)
termination_by structural m => m

end

/-- The greatest number of arrays and objects that may enclose one another. -/
def maxLevels : Nat := 127

/-- The value of a document. -/
def value? (document : Document) : Option Json :=
  document.valueWithin maxLevels

end Document

/-- The value that a text holds. -/
def Json.parse (text : String) : Option Json := do
  let document ← Document.parse text
  document.value?

/-! ## Back -/

namespace Document

/-- The spelling of an integer. -/
def ofInt (n : Int) : Document :=
  .number ⟨decide (n < 0), decimal n.natAbs, none, none⟩

/-- The spelling of a float in the compact text of values. -/
def ofFloat (x : Binary64) : Document :=
  let sign := readSign (Json.floatText x)
  match readNumber sign.1 sign.2 with
  | some (text, _) => .number text
  | none => .null

mutual

/-- The document that the compact text of a value holds. -/
def ofJson : Json → Document
  | .null => .null
  | .bool b => .bool b
  | .int n => ofInt n
  | .float x => ofFloat x
  | .string s => .string (some s)
  | .array items => .array (ofItems items)
  | .object members => .object (ofMembers members)
termination_by structural j => j

/-- Documents with the values of the items. -/
def ofItems : List Json → List Document
  | [] => []
  | item :: rest => ofJson item :: ofItems rest
termination_by structural items => items

/-- Documents with the values of the members. -/
def ofMembers : List (String × Json) → List (Option String × Document)
  | [] => []
  | m :: rest => ofMember m :: ofMembers rest
termination_by structural members => members

/-- A member with a document as its value. -/
def ofMember : String × Json → Option String × Document
  | (name, value) => (some name, ofJson value)
termination_by structural m => m

end

end Document

end Orm
