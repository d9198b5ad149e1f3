import Orm.Text.Digits

/-!
# `Orm.Sql.Dialect` — how a database writes names and placeholders

A dialect is a value that every rendering receives. An identifier is quoted by writing the quote
character around it and twice inside it.

## Contents
- **Names.** `TableName`.
- **Dialects.** `Dialect` with `postgres`, `mysql`, `sqlite`, `ansi`.
- **Quoting.** `quoteChars`, `unquote?` (its reader), `Dialect.quoted`.
- **Writing.** `Dialect.name`, `Dialect.label`, `Dialect.table`, `Dialect.placeholderText`.
-/

namespace Orm.Sql

open Text

/-! ## Names -/

/-- A table, with the schema it is in where one is declared. -/
structure TableName where
  schema : Option String
  name : String
  deriving DecidableEq, Repr

/-! ## Dialects -/

/-- Whether table names carry their schema. -/
inductive SchemaUse where
  | qualified
  | unqualified
  deriving DecidableEq, Repr

/-- How placeholders are written: all alike, or numbered. -/
inductive PlaceholderStyle where
  | question
  | dollar
  deriving DecidableEq, Repr

/-- The conventions of a database. -/
structure Dialect where
  /-- The character around identifiers. -/
  quote : Char
  /-- Whether names of tables and columns are quoted; aliases always are. -/
  quoteNames : Bool
  schema : SchemaUse
  placeholder : PlaceholderStyle
  deriving DecidableEq, Repr

namespace Dialect

/-- Double quotes and numbered placeholders. -/
def postgres : Dialect := ⟨'\x22', true, .qualified, .dollar⟩

/-- Backquotes and question marks. -/
def mysql : Dialect := ⟨'\x60', true, .qualified, .question⟩

/-- Double quotes, question marks and no schemas. -/
def sqlite : Dialect := ⟨'\x22', true, .unqualified, .question⟩

/-- Names of tables and columns as they are, question marks. -/
def ansi : Dialect := ⟨'\x22', false, .qualified, .question⟩

end Dialect

/-! ## Quoting -/

/-- The characters of a name with every quote written twice. -/
def doubled (quote : Char) (name : List Char) : List Char :=
  name.flatMap fun c => if c = quote then [c, c] else [c]

/-- A quote in a name is written twice. -/
theorem doubled_cons_self {quote : Char} {name : List Char} :
    doubled quote (quote :: name) = quote :: quote :: doubled quote name := by
  simp [doubled]

/-- Any other character is written once. -/
theorem doubled_cons_of_ne {quote c : Char} {name : List Char} (other : c ≠ quote) :
    doubled quote (c :: name) = c :: doubled quote name := by
  simp [doubled, other]

/-- A name without the quote is written as it is. -/
theorem doubled_of_not_mem {quote : Char} {name : List Char} (h : quote ∉ name) :
    doubled quote name = name := by
  induction name with
  | nil => rfl
  | cons c rest ih =>
    obtain ⟨other, later⟩ := List.ne_and_not_mem_of_not_mem_cons h
    rw [doubled_cons_of_ne other.symm, ih later]

/-- A name between quotes. -/
def quoteChars (quote : Char) (name : List Char) : List Char :=
  quote :: doubled quote name ++ [quote]

/-- Reads after an opening quote: a double quote is one character, a single one ends the name. The
name and the text after it. -/
def unquoteRest? (quote : Char) : List Char → Option (List Char × List Char)
  | [] => none
  | [c] => if c = quote then some ([], []) else none
  | c :: d :: rest =>
    if c = quote then
      if d = quote then (unquoteRest? quote rest).map fun p => (c :: p.1, p.2)
      else some ([], d :: rest)
    else (unquoteRest? quote (d :: rest)).map fun p => (c :: p.1, p.2)

/-- Reads a quoted name at the start of a text: the name and the text after it. -/
def unquote? (quote : Char) : List Char → Option (List Char × List Char)
  | [] => none
  | c :: rest => if c = quote then unquoteRest? quote rest else none

namespace Dialect

/-- A name between quotes. -/
def quoted (d : Dialect) (name : String) : String :=
  String.ofList (quoteChars d.quote name.toList)

/-! ## Writing -/

/-- The name of a table or column. -/
def name (d : Dialect) (name : String) : String :=
  if d.quoteNames then d.quoted name else name

/-- An alias or label; quoted in every dialect, for it may hold points. -/
def label (d : Dialect) (name : String) : String :=
  d.quoted name

/-- A table, after its schema where there is one and the dialect uses it. -/
def table (d : Dialect) (table : TableName) : String :=
  match table.schema, d.schema with
  | some schema, .qualified => d.name schema ++ "." ++ d.name table.name
  | _, _ => d.name table.name

/-- The placeholder of the value at a position, counted from one. -/
def placeholderText (d : Dialect) (position : Nat) : String :=
  match d.placeholder with
  | .question => "?"
  | .dollar => "$" ++ String.ofList (decimal position)

end Dialect

end Orm.Sql
