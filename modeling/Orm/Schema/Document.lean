import Orm.Json.Record
import Orm.Schema.Declaration

/-!
# `Orm.Schema.Document` — declarations as JSON

Every declaration is a record whose fields stand in a fixed order; an absent attribute is `null`.
Reading also takes arrays in place of objects and lets fields with a default be missing.

## Contents
- **Names.** `scalarNames`, `cardinalityNames`: the spelling of the choices.
- **Writing.** `TypeDecl.toJson` and its parts.
- **Reading.** `readType` and its parts.
-/

namespace Orm.Schema

open Sql

/-! ## Names -/

/-- The names of the scalar types. -/
def scalarNames : List (String × ScalarType) :=
  [("bool", .bool), ("tiny_int", .tinyInt), ("small_int", .smallInt), ("int", .int),
    ("big_int", .bigInt), ("float", .real), ("double", .double), ("decimal", .decimal),
    ("text", .text), ("bytes", .bytes), ("date", .date), ("time", .time),
    ("timestamp", .timestamp), ("timestamp_tz", .timestampTz), ("uuid", .uuid), ("json", .json)]

/-- The names of the cardinalities. -/
def cardinalityNames : List (String × Cardinality) :=
  [("one", .one), ("list", .list), ("array", .array)]

/-- The first name that a list gives to a choice. -/
def nameOf {α : Type} [BEq α] (names : List (String × α)) (choice : α) : String :=
  ((names.find? fun n => n.2 == choice).map (·.1)).getD ""

/-- Every scalar type is found again under its name. -/
theorem lookup_nameOf_scalar (type : ScalarType) :
    scalarNames.lookup (nameOf scalarNames type) = some type := by
  cases type <;> decide

/-- Every cardinality is found again under its name. -/
theorem lookup_nameOf_cardinality (cardinality : Cardinality) :
    cardinalityNames.lookup (nameOf cardinalityNames cardinality) = some cardinality := by
  cases cardinality <;> decide

/-! ## Writing -/

/-- A text, or `null`. -/
def textJson (text : Option String) : Json :=
  (text.map Json.string).getD .null

/-- A truth value, or `null`. -/
def flagJson (flag : Option Bool) : Json :=
  (flag.map Json.bool).getD .null

/-- An array of texts. -/
def textsJson (texts : List String) : Json :=
  .array (texts.map .string)

/-- A table as a record. -/
def tableJson (table : TableName) : Json :=
  Json.ofMembers [("schema", textJson table.schema), ("name", .string table.name)]

namespace LinkTable

/-- A link table as a record. -/
def toJson (link : LinkTable) : Json :=
  Json.ofMembers [("table", tableJson link.table), ("owner_column", textJson link.ownerColumn),
    ("target_column", textJson link.targetColumn)]

end LinkTable

/-- A set of attributes as a record. -/
def FieldAttrs.toJson (a : FieldAttrs) : Json :=
  Json.ofMembers [("id", flagJson a.id), ("transient", flagJson a.transient),
    ("embedded", flagJson a.embedded), ("prefix", textJson a.columnPrefix),
    ("lob", flagJson a.lob), ("column", textJson a.column),
    ("join_column", textJson a.joinColumn), ("link", (a.link.map LinkTable.toJson).getD .null),
    ("join_condition", textJson a.joinCondition), ("sql", textJson a.sql),
    ("group_by", flagJson a.groupBy)]

/-- The type of a field as a choice. -/
def FieldType.toJson : FieldType → Json
  | .value type => Json.ofMembers [("value", .string (nameOf scalarNames type))]
  | .named name => Json.ofMembers [("named", .string name)]

/-- A field as a record. -/
def FieldDecl.toJson (f : FieldDecl) : Json :=
  Json.ofMembers [("name", .string f.name), ("ty", f.type.toJson),
    ("cardinality", .string (nameOf cardinalityNames f.cardinality)), ("attrs", f.attrs.toJson),
    ("compat", f.compat.toJson)]

/-- A type as a record. -/
def TypeDecl.toJson (t : TypeDecl) : Json :=
  Json.ofMembers [("name", .string t.name), ("simple_name", textJson t.simpleName),
    ("superclass", textJson t.superclass), ("table", (t.table.map tableJson).getD .null),
    ("compat_table", (t.compatTable.map tableJson).getD .null),
    ("fields", .array (t.fields.map FieldDecl.toJson)), ("subclasses", textsJson t.subclasses),
    ("discriminator", textJson t.discriminator),
    ("compat_discriminator", textJson t.compatDiscriminator),
    ("discriminator_value", textJson t.discriminatorValue), ("is_enum", .bool t.isEnum),
    ("enum_constants", textsJson t.constants), ("embeddable", .bool t.embeddable),
    ("joins", textsJson t.joins), ("group_by", textsJson t.groupBy)]

/-! ## Reading -/

open Document

/-- A table. -/
def readTable (document : Document) : Option TableName := do
  let fields ← document.record? ["schema", "name"]
  let schema ← fields.optional "schema" text?
  let name ← fields.required "name" text?
  return ⟨schema, name⟩

/-- A link table. -/
def readLink (document : Document) : Option LinkTable := do
  let fields ← document.record? ["table", "owner_column", "target_column"]
  let table ← fields.required "table" readTable
  let ownerColumn ← fields.optional "owner_column" text?
  let targetColumn ← fields.optional "target_column" text?
  return ⟨table, ownerColumn, targetColumn⟩

/-- The names of the attributes, in their order. -/
def attrNames : List String :=
  ["id", "transient", "embedded", "prefix", "lob", "column", "join_column", "link",
    "join_condition", "sql", "group_by"]

/-- A set of attributes. -/
def readAttrs (document : Document) : Option FieldAttrs := do
  let fields ← document.record? attrNames
  let id ← fields.optional "id" bool?
  let transient ← fields.optional "transient" bool?
  let embedded ← fields.optional "embedded" bool?
  let columnPrefix ← fields.optional "prefix" text?
  let lob ← fields.optional "lob" bool?
  let column ← fields.optional "column" text?
  let joinColumn ← fields.optional "join_column" text?
  let link ← fields.optional "link" readLink
  let joinCondition ← fields.optional "join_condition" text?
  let sql ← fields.optional "sql" text?
  let groupBy ← fields.optional "group_by" bool?
  return ⟨id, transient, embedded, columnPrefix, lob, column, joinColumn, link, joinCondition, sql,
    groupBy⟩

/-- The type of a field. -/
def readFieldType (document : Document) : Option FieldType :=
  match document.variant? with
  | some ("value", some type) => (type.choice? scalarNames).map .value
  | some ("named", some name) => name.text?.map .named
  | _ => none

/-- A field. -/
def readField (document : Document) : Option FieldDecl := do
  let fields ← document.record? ["name", "ty", "cardinality", "attrs", "compat"]
  let name ← fields.required "name" text?
  let type ← fields.required "ty" readFieldType
  let cardinality ← fields.orElse "cardinality" .one (choice? cardinalityNames)
  let attrs ← fields.orElse "attrs" {} readAttrs
  let compat ← fields.orElse "compat" {} readAttrs
  return ⟨name, type, cardinality, attrs, compat⟩

/-- The names of the fields of a type, in their order. -/
def typeFieldNames : List String :=
  ["name", "simple_name", "superclass", "table", "compat_table", "fields", "subclasses",
    "discriminator", "compat_discriminator", "discriminator_value", "is_enum", "enum_constants",
    "embeddable", "joins", "group_by"]

/-- A type. -/
def readType (document : Document) : Option TypeDecl := do
  let fields ← document.record? typeFieldNames
  let name ← fields.orElse "name" "" text?
  let simpleName ← fields.optional "simple_name" text?
  let superclass ← fields.optional "superclass" text?
  let table ← fields.optional "table" readTable
  let compatTable ← fields.optional "compat_table" readTable
  let decls ← fields.orElse "fields" [] (list? readField)
  let subclasses ← fields.orElse "subclasses" [] (list? text?)
  let discriminator ← fields.optional "discriminator" text?
  let compatDiscriminator ← fields.optional "compat_discriminator" text?
  let discriminatorValue ← fields.optional "discriminator_value" text?
  let isEnum ← fields.orElse "is_enum" false bool?
  let constants ← fields.orElse "enum_constants" [] (list? text?)
  let embeddable ← fields.orElse "embeddable" false bool?
  let joins ← fields.orElse "joins" [] (list? text?)
  let groupBy ← fields.orElse "group_by" [] (list? text?)
  return ⟨name, simpleName, superclass, table, compatTable, decls, subclasses, discriminator,
    compatDiscriminator, discriminatorValue, isEnum, constants, embeddable, joins, groupBy⟩

end Orm.Schema
