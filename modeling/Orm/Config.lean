import Orm.Error
import Orm.Json.Record
import Orm.Sql.Dialect

/-!
# `Orm.Config` — configurations

A configuration is the dialect of a database and a hint how many rows to fetch at a time. Without
anything said the dialect is `Dialect.postgres`, and every part of it can be given by itself.

## Contents
- **Configurations.** `Config`.
- **Names.** `schemaUseNames`, `placeholderNames`.
- **Writing.** `Dialect.toJson`, `Config.toJson`.
- **Reading.** `readDialect`, `readConfig`, `Config.load`.
-/

namespace Orm

open Sql

/-! ## Configurations -/

/-- A dialect and the number of rows to fetch at a time. -/
structure Config where
  dialect : Dialect := .postgres
  fetchSize : Option Nat := none
  deriving DecidableEq, Repr

/-! ## Names -/

/-- The names of the uses of schemas. -/
def schemaUseNames : List (String × SchemaUse) :=
  [("qualified", .qualified), ("unqualified", .unqualified)]

/-- The names of the styles of placeholders. -/
def placeholderNames : List (String × PlaceholderStyle) :=
  [("question", .question), ("dollar", .dollar)]

/-- The name of a use of schemas. -/
def Sql.SchemaUse.name : SchemaUse → String
  | .qualified => "qualified"
  | .unqualified => "unqualified"

/-- The name of a style of placeholders. -/
def Sql.PlaceholderStyle.name : PlaceholderStyle → String
  | .question => "question"
  | .dollar => "dollar"

/-! ## Writing -/

/-- A dialect as a record. -/
def Sql.Dialect.toJson (d : Dialect) : Json :=
  Json.ofMembers [("quote", .string (String.ofList [d.quote])), ("quote_names", .bool d.quoteNames),
    ("schema", .string d.schema.name), ("placeholder", .string d.placeholder.name)]

/-- A configuration as a record. -/
def Config.toJson (c : Config) : Json :=
  Json.ofMembers [("dialect", c.dialect.toJson),
    ("fetch_size", (c.fetchSize.map fun n : Nat => Json.int n).getD .null)]

/-! ## Reading -/

open Document

/-- A dialect; what is missing is that of the default. -/
def readDialect (document : Document) : Option Dialect := do
  let fields ← document.record? ["quote", "quote_names", "schema", "placeholder"]
  let quote ← fields.orElse "quote" Dialect.postgres.quote character?
  let quoteNames ← fields.orElse "quote_names" Dialect.postgres.quoteNames bool?
  let schema ← fields.orElse "schema" Dialect.postgres.schema (choice? schemaUseNames)
  let placeholder ← fields.orElse "placeholder" Dialect.postgres.placeholder
    (choice? placeholderNames)
  return ⟨quote, quoteNames, schema, placeholder⟩

/-- The largest number of rows to fetch at a time. -/
def maxFetchSize : Nat := 2 ^ 64 - 1

/-- A configuration; what is missing is that of the default. -/
def readConfig (document : Document) : Option Config := do
  let fields ← document.record? ["dialect", "fetch_size"]
  let dialect ← fields.orElse "dialect" .postgres readDialect
  let fetchSize ← fields.optional "fetch_size" (natural? maxFetchSize)
  return ⟨dialect, fetchSize⟩

/-- The configuration in a JSON text. -/
def Config.load (text : String) : Except Error Config :=
  match (Document.parse text).bind readConfig with
  | some config => .ok config
  | none => .error .badConfiguration

end Orm
