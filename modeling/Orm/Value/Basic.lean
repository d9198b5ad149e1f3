import Orm.Json.Basic
import Orm.Number.Decimal
import Orm.Text.Blank

/-!
# `Orm.Value.Basic` — values of rows and parameters

A value is what one column of a row holds or one placeholder of a statement receives. Days are
counted from 1970-01-01; times are microseconds since midnight, timestamps microseconds since the
epoch.

## Contents
- **Types.** `ScalarType` with its SQL name and its families.
- **Identifiers.** `Uuid`.
- **Values.** `Value`, `Value.typeName`.
- **Views.** `isNull`, `text?`, `integer?`, `double?`.
-/

namespace Orm

open Number Text

/-! ## Types -/

/-- The type of a single value. -/
inductive ScalarType where
  | bool
  | tinyInt
  | smallInt
  | int
  | bigInt
  | real
  | double
  | decimal
  | text
  | bytes
  | date
  | time
  | timestamp
  | timestampTz
  | uuid
  | json
  deriving DecidableEq, Repr

namespace ScalarType

/-- The name of the type in messages. -/
def sqlName : ScalarType → String
  | .bool => "BOOLEAN"
  | .tinyInt => "TINYINT"
  | .smallInt => "SMALLINT"
  | .int => "INTEGER"
  | .bigInt => "BIGINT"
  | .real => "REAL"
  | .double => "DOUBLE"
  | .decimal => "DECIMAL"
  | .text => "TEXT"
  | .bytes => "BLOB"
  | .date => "DATE"
  | .time => "TIME"
  | .timestamp => "TIMESTAMP"
  | .timestampTz => "TIMESTAMPTZ"
  | .uuid => "UUID"
  | .json => "JSON"

/-- Whether the values are integers. -/
def isIntegral : ScalarType → Bool
  | .tinyInt | .smallInt | .int | .bigInt => true
  | _ => false

/-- Whether the values are days, times or instants. -/
def isTemporal : ScalarType → Bool
  | .date | .time | .timestamp | .timestampTz => true
  | _ => false

end ScalarType

/-! ## Identifiers -/

/-- A universally unique identifier: sixteen bytes. -/
structure Uuid where
  bytes : List UInt8
  size_eq : bytes.length = 16
  deriving DecidableEq, Repr

/-- The identifier with the given bytes, if there are sixteen. -/
def Uuid.ofBytes? (bytes : List UInt8) : Option Uuid :=
  if h : bytes.length = 16 then some ⟨bytes, h⟩ else none

/-! ## Values -/

/-- A value. -/
inductive Value where
  | null
  | bool (value : Bool)
  | tinyInt (value : Int8)
  | smallInt (value : Int16)
  | int (value : Int32)
  | bigInt (value : Int64)
  | real (value : Binary32)
  | double (value : Binary64)
  | decimal (value : String)
  | text (value : String)
  | bytes (value : List UInt8)
  | date (days : Int32)
  | time (micros : Int64)
  | timestamp (micros : Int64)
  | timestampTz (micros : Int64)
  | uuid (value : Uuid)
  | json (value : Json)
  | array (items : List Value)
  deriving Inhabited

namespace Value

/-- The name of the kind of a value in messages. -/
def typeName : Value → String
  | .null => "NULL"
  | .bool _ => "BOOLEAN"
  | .tinyInt _ => "TINYINT"
  | .smallInt _ => "SMALLINT"
  | .int _ => "INTEGER"
  | .bigInt _ => "BIGINT"
  | .real _ => "REAL"
  | .double _ => "DOUBLE"
  | .decimal _ => "DECIMAL"
  | .text _ => "TEXT"
  | .bytes _ => "BLOB"
  | .date _ => "DATE"
  | .time _ => "TIME"
  | .timestamp _ => "TIMESTAMP"
  | .timestampTz _ => "TIMESTAMPTZ"
  | .uuid _ => "UUID"
  | .json _ => "JSON"
  | .array _ => "ARRAY"

/-! ## Views -/

/-- Whether the value is NULL. -/
def isNull : Value → Bool
  | .null => true
  | _ => false

/-- The characters of a text or a decimal. -/
def text? : Value → Option String
  | .text s | .decimal s => some s
  | _ => none

/-- The integer that an integer of any width holds. -/
def integer? : Value → Option Int
  | .tinyInt n => some n.toInt
  | .smallInt n => some n.toInt
  | .int n => some n.toInt
  | .bigInt n => some n.toInt
  | _ => none

/-- The 64-bit float nearest to a number of any kind. -/
def double? : Value → Option Binary64
  | .real x => some x.widen
  | .double x => some x
  | .decimal s => Binary64.ofText (trim s.toList)
  | value => value.integer?.map Binary64.ofInt

/-- NULL is the only null value. -/
@[simp]
theorem isNull_iff {value : Value} : value.isNull = true ↔ value = .null := by
  cases value <;> simp [isNull]

end Value

end Orm
