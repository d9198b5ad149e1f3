import Orm.Value.Basic
import Orm.Calendar.Writing

/-!
# `Orm.Value.Rendering` — values as JSON and in messages

Days, times and instants become ISO 8601 texts, identifiers their hyphenated form, decimals strings
so that no digit is lost. A number or a time that JSON cannot show becomes `null`.

## Contents
- **Identifiers.** `Uuid.text`.
- **JSON.** `Value.toJson`.
- **Messages.** `Value.describe`.
-/

namespace Orm

open Text Calendar

/-! ## Identifiers -/

/-- Lower-case hexadecimal digits in groups of 8, 4, 4, 4 and 12. -/
def Uuid.text (u : Uuid) : String :=
  let group (start size : Nat) : List Char := ((u.bytes.drop start).take size).flatMap hexByte
  String.ofList (group 0 4 ++ '-' :: group 4 2 ++ '-' :: group 6 2 ++ '-' :: group 8 2 ++
    '-' :: group 10 6)

/-! ## JSON -/

/-- A text that may be missing. -/
def Json.ofText? (text : Option (List Char)) : Json :=
  match text with
  | some cs => .string (String.ofList cs)
  | none => .null

namespace Value

mutual

/-- The JSON form of a value. -/
def toJson : Value → Json
  | .null => .null
  | .bool b => .bool b
  | .tinyInt n => .int n.toInt
  | .smallInt n => .int n.toInt
  | .int n => .int n.toInt
  | .bigInt n => .int n.toInt
  | .real x => .ofFloat x.widen
  | .double x => .ofFloat x
  | .decimal s => .string s
  | .text s => .string s
  | .bytes bs => .array (bs.map fun b => .int b.toNat)
  | .date days => .ofText? (dayText? days.toInt)
  | .time micros => .ofText? (timeText? micros.toInt)
  | .timestamp micros => .ofText? (instantText? micros.toInt)
  | .timestampTz micros => .ofText? ((instantText? micros.toInt).map (· ++ ['Z']))
  | .uuid u => .string u.text
  | .json j => j
  | .array items => .array (itemsToJson items)
termination_by structural v => v

/-- The JSON forms of the items of an array. -/
def itemsToJson : List Value → List Json
  | [] => []
  | item :: rest => toJson item :: itemsToJson rest
termination_by structural items => items

end

/-! ## Messages -/

/-- A value as messages show it. -/
def describe (value : Value) : String :=
  match value with
  | .text s | .decimal s => value.typeName ++ " '" ++ s ++ "'"
  | .bytes bs => "BLOB (" ++ toString bs.length ++ " bytes)"
  | .array items => "ARRAY (" ++ toString items.length ++ " items)"
  | .json _ | .null => value.typeName
  | other => other.typeName ++ " " ++ other.toJson.print

end Value

end Orm
