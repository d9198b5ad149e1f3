import Orm.Json.Document

/-!
# `Orm.Json.Record` — records in JSON documents

A record is written as an object or as an array of its fields in their order. In an object, members
the record does not know are passed over and a member it knows may stand only once. In an array,
fields may be missing at the end and none may follow the last.

## Contents
- **Simple values.** `bool?`, `text?`, `character?`, `natural?`, `list?`, `nullable?`.
- **Choices.** `variant?`, `unit?`: a name, or an object with the name as its only member.
- **Records.** `record?` finds the documents of the fields; `Fields.required` and
  `Fields.orElse` read them.
-/

namespace Orm.Document

/-! ## Simple values -/

/-- A truth value. -/
def bool? : Document → Option Bool
  | .bool b => some b
  | _ => none

/-- A string. -/
def text? : Document → Option String
  | .string s => s
  | _ => none

/-- A string of one character. -/
def character? (document : Document) : Option Char :=
  match document.text?.map String.toList with
  | some [c] => some c
  | _ => none

/-- A natural number up to `limit`. -/
def natural? (limit : Nat) : Document → Option Nat
  | .number t => t.natural? limit
  | _ => none

/-- An array whose items `read` reads. -/
def list? {α : Type} (read : Document → Option α) : Document → Option (List α)
  | .array items => items.mapM read
  | _ => none

/-- What `read` reads, or `null` for nothing. -/
def nullable? {α : Type} (read : Document → Option α) : Document → Option (Option α)
  | .null => some none
  | document => (read document).map some

/-! ## Choices -/

/-- The name of a choice and what is attached to it. -/
def variant? : Document → Option (String × Option Document)
  | .string s => s.map (·, none)
  | .object [(name, value)] => name.map (·, some value)
  | _ => none

/-- The name of a choice to which nothing is attached. -/
def unit? (document : Document) : Option String :=
  match document.variant? with
  | some (name, none) => some name
  | some (name, some .null) => some name
  | _ => none

/-- A choice among named values. -/
def choice? {α : Type} (choices : List (String × α)) (document : Document) : Option α :=
  document.unit?.bind fun name => choices.lookup name

/-! ## Records -/

/-- The documents of the fields of a record, by name. -/
abbrev Fields := List (String × Document)

/-- The members of an object whose names are among `names`, unless one of these stands twice. -/
def knownMembers (names : List String) : List (Option String × Document) → Option Fields
  | [] => some []
  | (none, _) :: _ => none
  | (some name, value) :: rest => do
    let fields ← knownMembers names rest
    if names.contains name then
      if (List.lookup name fields).isSome then none else some ((name, value) :: fields)
    else some fields

/-- The documents of the fields `names` of a record. -/
def record? (names : List String) : Document → Option Fields
  | .object members => knownMembers names members
  | .array items => if items.length ≤ names.length then some (names.zip items) else none
  | _ => none

namespace Fields

/-- A field that must be there. -/
def required {α : Type} (fields : Fields) (name : String) (read : Document → Option α) :
    Option α :=
  (List.lookup name fields).bind read

/-- A field with a value to fall back on when it is not there. -/
def orElse {α : Type} (fields : Fields) (name : String) (default : α)
    (read : Document → Option α) : Option α :=
  match List.lookup name fields with
  | some document => read document
  | none => some default

/-- A field that may be `null` or missing. -/
def optional {α : Type} (fields : Fields) (name : String) (read : Document → Option α) :
    Option (Option α) :=
  fields.orElse name none (nullable? read)

end Fields

end Orm.Document
