import Orm.Number.Shortest

/-!
# `Orm.Json.Basic` — JSON values and their compact text

Numbers are integers or finite 64-bit numbers. The members of an object are kept in the order of
their names, each name once.

## Contents
- **Values.** `Json`, `Json.ofFloat`, `Json.insert`, `Json.ofMembers`, `Json.member?`.
- **Text.** `Json.print`, without any blank.
-/

namespace Orm

open Number Text

/-! ## Values -/

/-- A JSON value. -/
inductive Json where
  | null
  | bool (value : Bool)
  | int (value : Int)
  | float (value : Binary64)
  | string (value : String)
  | array (items : List Json)
  | object (members : List (String × Json))
  deriving Repr, Inhabited

namespace Json

/-- A number; JSON has no way to write one that is not finite. -/
def ofFloat (x : Binary64) : Json :=
  if x.isFinite then .float x else .null

/-- The members with `name` set to `value`; the order is that of the names. -/
def insert (name : String) (value : Json) : List (String × Json) → List (String × Json)
  | [] => [(name, value)]
  | (other, v) :: rest =>
    if name = other then (name, value) :: rest
    else if name < other then (name, value) :: (other, v) :: rest
    else (other, v) :: insert name value rest

/-- The object with these members; of members with one name the last counts. -/
def ofMembers (members : List (String × Json)) : Json :=
  .object (members.foldl (fun acc m => insert m.1 m.2 acc) [])

/-- The value of the member `name`. -/
def member? (name : String) : Json → Option Json
  | .object members => members.lookup name
  | _ => none

/-! ## Text -/

/-- How numbers are written: positionally from `1e-5` to below `1e16`, always with a point or an
exponent. -/
def numberStyle : Style := ⟨.even, some (-5, 15), ['.', '0']⟩

/-- The text of a number. -/
def floatText (x : Binary64) : List Char :=
  match x.read with
  | .finite negative significand exponent =>
    numberStyle.write binary64 negative significand exponent
  | _ => "null".toList

/-- A character inside a string: quotes, backslashes and control characters are escaped. -/
def escape (c : Char) : List Char :=
  if c = '\x22' then ['\\', '\x22']
  else if c = '\\' then ['\\', '\\']
  else if c = '\x08' then ['\\', 'b']
  else if c = '\x0c' then ['\\', 'f']
  else if c = '\n' then ['\\', 'n']
  else if c = '\r' then ['\\', 'r']
  else if c = '\t' then ['\\', 't']
  else if c.toNat < 32 then '\\' :: 'u' :: '0' :: '0' :: hexByte (UInt8.ofNat c.toNat)
  else [c]

/-- A quoted string. -/
def quote (s : String) : List Char :=
  '\x22' :: s.toList.flatMap escape ++ ['\x22']

mutual

/-- The characters of a value. -/
def chars : Json → List Char
  | .null => "null".toList
  | .bool b => if b then "true".toList else "false".toList
  | .int n => signed n
  | .float x => floatText x
  | .string s => quote s
  | .array items => '[' :: itemChars items
  | .object members => '{' :: memberChars members
termination_by structural j => j

/-- The characters of the items of an array, up to its end. -/
def itemChars : List Json → List Char
  | [] => [']']
  | item :: rest => chars item ++ (if rest.isEmpty then [] else [',']) ++ itemChars rest
termination_by structural items => items

/-- The characters of the members of an object, up to its end. -/
def memberChars : List (String × Json) → List Char
  | [] => ['}']
  | m :: rest => memberText m ++ (if rest.isEmpty then [] else [',']) ++ memberChars rest
termination_by structural members => members

/-- The characters of one member. -/
def memberText : String × Json → List Char
  | (name, value) => quote name ++ ':' :: chars value
termination_by structural m => m

end

/-- The compact text of a value. -/
def print (value : Json) : String :=
  String.ofList value.chars

end Json

end Orm
