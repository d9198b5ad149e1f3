import Orm.Sql.Dialect
import Orm.Value.Basic

/-!
# `Orm.Schema.Declaration` — declared types and fields

A declaration says how a type is mapped: its tables, fields, superclass and subclasses. A field has
two sets of attributes, its own and a set kept for compatibility; what the first leaves open the
second decides.

## Contents
- **Attributes.** `LinkTable`, `FieldAttrs`, `FieldAttrs.orElse`.
- **Fields.** `FieldType`, `Cardinality`, `FieldDecl` and what can be said of a field.
- **Types.** `TypeDecl` and what can be said of a type.
- **Fixed types.** `FixedType`, the part of a declaration that a program text can state.
-/

namespace Orm.Schema

open Sql

/-! ## Attributes -/

/-- The table between the two sides of a many-to-many relation. -/
structure LinkTable where
  table : TableName
  /-- The column with the owner's key. -/
  ownerColumn : Option String
  /-- The column with the target's key. -/
  targetColumn : Option String
  deriving DecidableEq, Repr

/-- The attributes of a field; what is absent is left open. -/
structure FieldAttrs where
  /-- The field is part of the primary key. -/
  id : Option Bool := none
  /-- The field is not stored. -/
  transient : Option Bool := none
  /-- The field is a value object, flattened into the columns of its owner. -/
  embedded : Option Bool := none
  /-- What the columns of an embedded value object begin with. -/
  columnPrefix : Option String := none
  /-- The column holds a large object. -/
  lob : Option Bool := none
  column : Option String := none
  /-- The foreign key column of a join. -/
  joinColumn : Option String := none
  link : Option LinkTable := none
  /-- The condition of the join. -/
  joinCondition : Option String := none
  /-- The expression that is selected in place of a column. -/
  sql : Option String := none
  /-- The column is grouped by. -/
  groupBy : Option Bool := none
  deriving DecidableEq, Repr

/-- Attributes with the open ones taken from a second set. -/
def FieldAttrs.orElse (a b : FieldAttrs) : FieldAttrs where
  id := a.id.or b.id
  transient := a.transient.or b.transient
  embedded := a.embedded.or b.embedded
  columnPrefix := a.columnPrefix.or b.columnPrefix
  lob := a.lob.or b.lob
  column := a.column.or b.column
  joinColumn := a.joinColumn.or b.joinColumn
  link := a.link.or b.link
  joinCondition := a.joinCondition.or b.joinCondition
  sql := a.sql.or b.sql
  groupBy := a.groupBy.or b.groupBy

/-! ## Fields -/

/-- The type of a field: that of a single value, or a declared type. -/
inductive FieldType where
  | value (type : ScalarType)
  | named (name : String)
  deriving DecidableEq, Repr

/-- How many values a field holds. -/
inductive Cardinality where
  | one
  | list
  | array
  deriving DecidableEq, Repr

/-- Whether a field holds many values. -/
def Cardinality.isMany : Cardinality → Bool
  | .one => false
  | _ => true

/-- A declared field. -/
structure FieldDecl where
  name : String
  type : FieldType
  cardinality : Cardinality := .one
  attrs : FieldAttrs := {}
  /-- The attributes kept for compatibility. -/
  compat : FieldAttrs := {}
  deriving DecidableEq, Repr

namespace FieldDecl

/-- The field with its attributes changed. -/
def withAttrs (f : FieldDecl) (change : FieldAttrs → FieldAttrs) : FieldDecl :=
  { f with attrs := change f.attrs }

/-- The attributes that count. -/
def effective (f : FieldDecl) : FieldAttrs :=
  f.attrs.orElse f.compat

/-- An embedded value object whose columns begin with a given text. -/
def embeddedAs (f : FieldDecl) (columnPrefix : String) : FieldDecl :=
  f.withAttrs fun a => { a with embedded := some true, columnPrefix := some columnPrefix }

end FieldDecl

/-! ## Types -/

/-- A declared type. -/
structure TypeDecl where
  name : String := ""
  /-- The short name; by default the end of the name. -/
  simpleName : Option String := none
  superclass : Option String := none
  table : Option TableName := none
  /-- The table kept for compatibility. -/
  compatTable : Option TableName := none
  fields : List FieldDecl := []
  subclasses : List String := []
  /-- The column that names the subtype of a row. -/
  discriminator : Option String := none
  /-- The discriminator column kept for compatibility. -/
  compatDiscriminator : Option String := none
  /-- What the discriminator column holds for this type. -/
  discriminatorValue : Option String := none
  isEnum : Bool := false
  constants : List String := []
  /-- The type may be embedded as a value object. -/
  embeddable : Bool := false
  /-- Joins that are added to a statement as they are. -/
  joins : List String := []
  /-- Terms that a statement is also grouped by. -/
  groupBy : List String := []
  deriving DecidableEq, Repr

namespace TypeDecl

/-- One more field. -/
def withField (t : TypeDecl) (field : FieldDecl) : TypeDecl :=
  { t with fields := t.fields ++ [field] }

/-- One more subclass. -/
def withSubclass (t : TypeDecl) (name : String) : TypeDecl :=
  { t with subclasses := t.subclasses ++ [name] }

/-- An enumeration of constants. -/
def enumeration (t : TypeDecl) (constants : List String) : TypeDecl :=
  { t with isEnum := true, constants := constants }

/-- One more join. -/
def withJoin (t : TypeDecl) (sql : String) : TypeDecl :=
  { t with joins := t.joins ++ [sql] }

/-- One more grouping term. -/
def withGroup (t : TypeDecl) (sql : String) : TypeDecl :=
  { t with groupBy := t.groupBy ++ [sql] }

/-- The table of the type itself. -/
def ownTable (t : TypeDecl) : Option TableName :=
  t.table.or t.compatTable

end TypeDecl

/-! ## Fixed types -/

/-- A type as a program text states it. It has no short name and no discriminator column of its own
for compatibility, and it is an enumeration exactly when it has constants. -/
structure FixedType where
  name : String
  superclass : Option String := none
  table : Option TableName := none
  compatTable : Option TableName := none
  fields : List FieldDecl := []
  subclasses : List String := []
  discriminator : Option String := none
  discriminatorValue : Option String := none
  constants : List String := []
  embeddable : Bool := false
  joins : List String := []
  groupBy : List String := []
  deriving DecidableEq, Repr

/-- The declaration of a fixed type. -/
def FixedType.declaration (t : FixedType) : TypeDecl where
  name := t.name
  superclass := t.superclass
  table := t.table
  compatTable := t.compatTable
  fields := t.fields
  subclasses := t.subclasses
  discriminator := t.discriminator
  discriminatorValue := t.discriminatorValue
  isEnum := !t.constants.isEmpty
  constants := t.constants
  embeddable := t.embeddable
  joins := t.joins
  groupBy := t.groupBy

end Orm.Schema
