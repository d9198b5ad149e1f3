import Orm.Schema.Model
import Orm.Schema.Source

/-!
# `Orm.Schema.Description` — from declarations to described types

A type is described from the root of its ancestry down: every layer classifies its fields by what
they name. A named type is an enumeration, a relation if it or an ancestor has a table, and else a
value object, if one may be embedded here.

## Contents
- **Fields.** `hasTable`, `classify`, `describeField`.
- **Layers.** `simpleNameOf`, `describeLayer`.
- **Types.** `describeFrom`, `Schema.describe`.
- **Constants.** `Schema.constantsOf`.
-/

namespace Orm.Schema

open Sql Text

variable (s : Schema)

/-! ## Fields -/

/-- Whether a declaration or one of the next ancestors has a table; `fuel` bounds their number. -/
def hasTable : Nat → TypeDecl → Bool
  | 0, decl => decl.ownTable.isSome
  | fuel + 1, decl =>
    decl.ownTable.isSome ||
      match decl.superclass.bind s.find? with
      | some parent => hasTable fuel parent
      | none => false

/-- What a field that names a type stands for. -/
def classify (owner : String) (field : FieldDecl) (target : String) : Except Error FieldClass :=
  match s.find? target with
  | none => .error (.unknownFieldType owner field.name target)
  | some decl =>
    if decl.isEnum then .ok (.enumeration target)
    else if hasTable s s.size decl then .ok (.relation target)
    else if (field.effective.embedded.getD false || decl.embeddable) && !field.cardinality.isMany
    then .ok (.embedded target)
    else .error (.unmappedField owner field.name target)

/-- The class of a field. -/
def fieldClass (owner : String) (field : FieldDecl) : Except Error FieldClass :=
  match field.type with
  | .value type => .ok (.scalar type)
  | .named target => classify s owner field target

/-- A described field. -/
def describeField (owner : String) (field : FieldDecl) : Except Error FieldModel := do
  let cls ← fieldClass s owner field
  let attrs := field.effective
  return {
    name := field.name
    owner := owner
    cls := cls
    cardinality := field.cardinality
    id := attrs.id.getD false
    transient := attrs.transient.getD false
    lob := attrs.lob.getD false
    column := attrs.column.getD field.name
    joinColumn := attrs.joinColumn
    link := attrs.link
    joinCondition := attrs.joinCondition
    sql := attrs.sql
    groupBy := attrs.groupBy.getD false
    columnPrefix := attrs.columnPrefix }

/-! ## Layers -/

/-- The end of a qualified name, after the last colon or point. -/
def simpleNameOf (name : String) : String :=
  String.ofList (afterLast (fun c => c == ':' || c == '.') name.toList)

/-- What a declaration says by itself. -/
def describeLayer (decl : TypeDecl) : Except Error TypeLayer := do
  let fields ← decl.fields.mapM (describeField s decl.name)
  return {
    name := decl.name
    simpleName := decl.simpleName.getD (simpleNameOf decl.name)
    table := decl.ownTable
    fields := fields
    subclasses := decl.subclasses
    discriminator := decl.discriminator.or decl.compatDiscriminator
    discriminatorValue := decl.discriminatorValue
    constants := decl.constants
    isEnum := decl.isEnum
    embeddable := decl.embeddable
    joins := decl.joins
    groupBy := decl.groupBy }

/-! ## Types -/

/-- Describes a type that was reached along a chain of subclasses; `fuel` bounds the chain. -/
def describeFrom : Nat → List String → String → Except Error TypeModel
  | 0, chain, name => .error (.inheritanceLoop chain name)
  | fuel + 1, chain, name =>
    if chain.contains name then .error (.inheritanceLoop chain name)
    else match s.find? name with
      | none => .error (.noDeclaration name)
      | some decl =>
        if decl.name.isEmpty then .error .namelessType
        else do
          let parent ← match decl.superclass with
            | none => pure none
            | some parent => some <$> describeFrom fuel (chain ++ [name]) parent
          let own ← describeLayer s decl
          return .extending own parent

/-- The described type of a name. A chain without repetition is not longer than the schema, so the
fuel does not run out. -/
def describe (name : String) : Except Error TypeModel :=
  describeFrom s (s.size + 1) [] name

/-! ## Constants -/

/-- The constants that the values of a field are taken from; none for a field of another class. -/
def constantsOf (field : FieldModel) : Except Error (List String) :=
  match field.cls with
  | .enumeration name => (·.constants) <$> describe s name
  | _ => .ok []

end Orm.Schema
