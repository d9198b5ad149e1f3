import Orm.Value.Rendering
import Orm.Calendar.Reading
import Orm.Json.Document

/-!
# `Orm.Value.Coercion` — values made to fit a declared type

Drivers hand back what they please; the declared type decides what is kept. NULL fits every type.
A conversion loses nothing or is rejected, save that an integer read from a float is first brought
into the 64-bit range.

## Contents
- **Rejections.** `Rejection`.
- **Numbers.** `readIntegral?`, `wholeNumber`, `ScalarType.fit?`.
- **Identifiers.** `Uuid.ofText?`.
- **Conversions.** `coerceBool`, `coerceIntegral`, …, `Value.coerce`, `Value.coerceItems`.
- **Enumerations.** `Value.constant`.
-/

namespace Orm

open Number Text Calendar

/-! ## Rejections -/

/-- Why a value was rejected: the type expected, the value found, and the detail. -/
structure Rejection where
  expected : String
  found : String
  message : String
  deriving DecidableEq, Repr

/-- The rejection of a value for a reason. -/
def Rejection.of (expected : String) (value : Value) (message : String) : Rejection :=
  ⟨expected, value.describe, message⟩

/-- A value of a kind that the type does not take. -/
def Rejection.mismatch (type : ScalarType) (value : Value) : Rejection :=
  .of type.sqlName value "incompatible value"

/-! ## Numbers -/

/-- The smallest 64-bit integer. -/
def minInteger : Int := -2 ^ 63

/-- The largest 64-bit integer. -/
def maxInteger : Int := 2 ^ 63 - 1

/-- A 64-bit integer in text, between blanks and with a fraction of zeros or none. -/
def readIntegral? (text : String) : Option Int :=
  let text := trim text.toList
  match cutAt '.' text with
  | some (whole, fraction) =>
    if fraction.all (· == '0') then readWithin minInteger maxInteger whole else none
  | none => readWithin minInteger maxInteger text

/-- The nearest 64-bit integer. -/
def saturate (n : Int) : Int :=
  max minInteger (min maxInteger n)

/-- The integer that a value is. -/
def wholeNumber (type : ScalarType) (value : Value) : Except Rejection Int :=
  let broken := Rejection.of type.sqlName value "not a whole number"
  match value with
  | .tinyInt n => .ok n.toInt
  | .smallInt n => .ok n.toInt
  | .int n => .ok n.toInt
  | .bigInt n => .ok n.toInt
  | .decimal s | .text s =>
    match readIntegral? s with
    | some n => .ok n
    | none => .error broken
  | .real x =>
    match x.widen.whole? with
    | some n => .ok (saturate n)
    | none => .error broken
  | .double x =>
    match x.whole? with
    | some n => .ok (saturate n)
    | none => .error broken
  | .bool b => .ok (if b then 1 else 0)
  | _ => .error (.mismatch type value)

/-- An integer as a value of an integral type, if it is in the type's range. -/
def ScalarType.fit? (type : ScalarType) (n : Int) : Option Value :=
  match type with
  | .tinyInt => if -2 ^ 7 ≤ n ∧ n < 2 ^ 7 then some (.tinyInt (Int8.ofInt n)) else none
  | .smallInt => if -2 ^ 15 ≤ n ∧ n < 2 ^ 15 then some (.smallInt (Int16.ofInt n)) else none
  | .int => if -2 ^ 31 ≤ n ∧ n < 2 ^ 31 then some (.int (Int32.ofInt n)) else none
  | _ => if minInteger ≤ n ∧ n ≤ maxInteger then some (.bigInt (Int64.ofInt n)) else none

/-! ## Identifiers -/

/-- The byte that a pair of bytes spells, if the pair is a text in UTF-8. -/
def pairByte? (a b : UInt8) : Option UInt8 := do
  let text ← String.fromUTF8? ⟨#[a, b]⟩
  readByte? text.toList

/-- The bytes that pairs of bytes spell. -/
def pairBytes? : List UInt8 → Option (List UInt8)
  | [] => some []
  | [_] => none
  | a :: b :: rest => do
    let byte ← pairByte? a b
    let bytes ← pairBytes? rest
    return byte :: bytes

/-- The identifier that a text denotes: thirty-two bytes in pairs; hyphens may stand anywhere. -/
def Uuid.ofText? (text : String) : Option Uuid :=
  let hex := text.toUTF8.data.toList.filter (· != '-'.toUInt8)
  if hex.length = 32 then (pairBytes? hex).bind Uuid.ofBytes? else none

/-! ## Conversions -/

namespace Value

/-- A truth value: itself, one of the words for it in any case, or the integer 0 or 1. -/
def coerceBool (value : Value) : Except Rejection Value :=
  match value with
  | .bool b => .ok (.bool b)
  | .text s =>
    let word := String.ofList ((trim s.toList).map Char.toLower)
    if ["true", "t", "yes", "1"].contains word then .ok (.bool true)
    else if ["false", "f", "no", "0"].contains word then .ok (.bool false)
    else .error (.mismatch .bool value)
  | other =>
    match other.integer? with
    | some 0 => .ok (.bool false)
    | some 1 => .ok (.bool true)
    | _ => .error (.mismatch .bool other)

/-- An integer in the range of an integral type. -/
def coerceIntegral (type : ScalarType) (value : Value) : Except Rejection Value := do
  let n ← wholeNumber type value
  match type.fit? n with
  | some fitted => .ok fitted
  | none => .error (.of type.sqlName value "out of range")

/-- The 64-bit float of a number or of a text that denotes one. -/
def coerceFloat (type : ScalarType) (value : Value) : Except Rejection Binary64 :=
  let number := match value with
    | .text s => Binary64.ofText (trim s.toList)
    | other => other.double?
  match number with
  | some x => .ok x
  | none => .error (.mismatch type value)

/-- The decimal text of a number, or of a text that denotes one. -/
def coerceDecimal (value : Value) : Except Rejection Value :=
  match value with
  | .decimal s => .ok (.decimal s)
  | .text s =>
    match Binary64.ofText (trim s.toList) with
    | some _ => .ok (.decimal (trimmed s))
    | none => .error (.mismatch .decimal value)
  | .real x => .ok (.decimal x.plainText)
  | .double x => .ok (.decimal x.plainText)
  | other =>
    match other.integer? with
    | some n => .ok (.decimal (String.ofList (signed n)))
    | none => .error (.mismatch .decimal other)

/-- A text, the digits of a decimal, or the text of an identifier. -/
def coerceText (value : Value) : Except Rejection Value :=
  match value with
  | .text s => .ok (.text s)
  | .decimal s => .ok (.text s)
  | .uuid u => .ok (.text u.text)
  | other => .error (.mismatch .text other)

/-- Bytes, or the UTF-8 bytes of a text. -/
def coerceBytes (value : Value) : Except Rejection Value :=
  match value with
  | .bytes bs => .ok (.bytes bs)
  | .text s => .ok (.bytes (s.toList.flatMap String.utf8EncodeChar))
  | other => .error (.mismatch .bytes other)

/-- A day, the day of an instant, or the day that a text denotes. -/
def coerceDate (value : Value) : Except Rejection Value :=
  match value with
  | .date d => .ok (.date d)
  | .timestamp us | .timestampTz us => .ok (.date (Int32.ofInt (dayOf us.toInt)))
  | .text s =>
    match readDate (trim s.toList) with
    | .ok day => .ok (.date (Int32.ofInt day))
    | .error fault => .error (.of "DATE" value fault.message)
  | other => .error (.mismatch .date other)

/-- A time of day, that of an instant, or the one that a text denotes. -/
def coerceTime (value : Value) : Except Rejection Value :=
  match value with
  | .time t => .ok (.time t)
  | .timestamp us | .timestampTz us => .ok (.time (Int64.ofInt (timeOf us.toInt)))
  | .text s =>
    match readTime (trim s.toList) with
    | .ok micros => .ok (.time (Int64.ofInt micros))
    | .error fault => .error (.of "TIME" value fault.message)
  | other => .error (.mismatch .time other)

/-- An instant in 64 bits, or the reason why not. -/
def fitInstant (value : Value) (micros : Int) (reason : String) : Except Rejection Int64 :=
  if minInteger ≤ micros ∧ micros ≤ maxInteger then .ok (Int64.ofInt micros)
  else .error (.of "TIMESTAMP" value reason)

/-- An instant, midnight of a day, the instant that a text denotes, or an integer number of
milliseconds since the epoch. -/
def coerceInstant (value : Value) : Except Rejection Int64 :=
  match value with
  | .timestamp us | .timestampTz us => .ok us
  | .date d => fitInstant value (d.toInt * microsPerDay) "date out of timestamp range"
  | .text s =>
    match readInstant? (trim s.toList) with
    | some micros => .ok (Int64.ofInt micros)
    | none => .error (.of "TIMESTAMP" value "unrecognized timestamp text")
  | other =>
    match other.integer? with
    | some ms => fitInstant other (ms * 1000) "epoch milliseconds out of timestamp range"
    | none => .error (.mismatch .timestamp other)

/-- An identifier, from its text or its bytes. -/
def coerceUuid (value : Value) : Except Rejection Value :=
  match value with
  | .uuid u => .ok (.uuid u)
  | .text s =>
    match Uuid.ofText? s with
    | some u => .ok (.uuid u)
    | none => .error (.of "UUID" value "malformed UUID text")
  | .bytes bs =>
    match Uuid.ofBytes? bs with
    | some u => .ok (.uuid u)
    | none => .error (.of "UUID" value "a UUID is 16 bytes")
  | other => .error (.mismatch .uuid other)

/-- A JSON value: itself, the one that a text holds, or the JSON form of anything else. What is wrong with
a text that holds none is not said. -/
def coerceJson (value : Value) : Except Rejection Value :=
  match value with
  | .json j => .ok (.json j)
  | .text s =>
    match Json.parse s with
    | some j => .ok (.json j)
    | none => .error (.of "JSON" value "invalid JSON")
  | other => .ok (.json other.toJson)

/-- The value made to fit a type. -/
def coerce (type : ScalarType) (value : Value) : Except Rejection Value :=
  if value.isNull then .ok .null
  else match type with
    | .bool => coerceBool value
    | .tinyInt | .smallInt | .int | .bigInt => coerceIntegral type value
    | .real => (coerceFloat type value).map fun x => .real x.narrow
    | .double => (coerceFloat type value).map .double
    | .decimal => coerceDecimal value
    | .text => coerceText value
    | .bytes => coerceBytes value
    | .date => coerceDate value
    | .time => coerceTime value
    | .timestamp => (coerceInstant value).map .timestamp
    | .timestampTz => (coerceInstant value).map .timestampTz
    | .uuid => coerceUuid value
    | .json => coerceJson value

/-- NULL fits every type. -/
@[simp]
theorem coerce_null (type : ScalarType) : coerce type .null = .ok .null := rfl

/-- The items of an array made to fit a type, one by one. -/
def coerceItems (type : ScalarType) (items : List Value) : Except Rejection Value :=
  (items.mapM (coerce type)).map .array

/-! ## Enumerations -/

/-- A text that is one of the constants of an enumeration. -/
def constant (constants : List String) (value : Value) : Except Rejection Value :=
  match value with
  | .text name =>
    if constants.contains name then .ok (.text name)
    else .error (.of "enum constant" value
      ("'" ++ name ++ "' is not one of [" ++ joinWith ", " constants ++ "]"))
  | other => .error (.of "enum constant" other "enum values are stored by name")

end Value

end Orm
