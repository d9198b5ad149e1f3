import Orm.Schema.Declaration
import Orm.Value.Coercion

/-!
# `Orm.Schema.Model` — described types and fields

What a declaration means once its names are resolved. A described type carries the layers of all its
ancestors, so nothing has to be looked up again.

## Contents
- **Fields.** `FieldClass`, `FieldModel`, its target, its prefix, `FieldModel.coerce`.
- **Types.** `TypeLayer` (what one type declares), `TypeModel` (with its ancestors).
- **Ancestry.** `superclass?`, `lineage`, `allFields`, `idFields`, `field?`, `isA`.
- **Tables.** `isMapped`.
- **Names.** `registeredName`.
-/

namespace Orm.Schema

open Sql

/-! ## Fields -/

/-- How a field takes part in the mapping. -/
inductive FieldClass where
  /-- A single value in a column. -/
  | scalar (type : ScalarType)
  /-- A column with the name of a constant of an enumeration. -/
  | enumeration (name : String)
  /-- One or many objects of a mapped type. -/
  | relation (target : String)
  /-- A value object in columns of its owner. -/
  | embedded (target : String)
  deriving DecidableEq, Repr

/-- A described field. -/
structure FieldModel where
  name : String
  /-- The type that declares the field. -/
  owner : String
  cls : FieldClass
  cardinality : Cardinality
  id : Bool
  transient : Bool
  lob : Bool
  column : String
  joinColumn : Option String
  link : Option LinkTable
  joinCondition : Option String
  sql : Option String
  groupBy : Bool
  /-- The declared beginning of the columns of an embedded value object. -/
  columnPrefix : Option String
  deriving DecidableEq, Repr

namespace FieldModel

/-- The type that the field names, if it names one. -/
def target? (f : FieldModel) : Option String :=
  match f.cls with
  | .scalar _ => none
  | .enumeration name => some name
  | .relation name => some name
  | .embedded name => some name

/-- The declared type of the field. -/
def type (f : FieldModel) : FieldType :=
  match f.cls with
  | .scalar type => .value type
  | .enumeration name => .named name
  | .relation name => .named name
  | .embedded name => .named name

/-- Whether the field is a relation. -/
def isRelation (f : FieldModel) : Bool :=
  match f.cls with
  | .relation _ => true
  | _ => false

/-- Whether the field is an embedded value object. -/
def isEmbedded (f : FieldModel) : Bool :=
  match f.cls with
  | .embedded _ => true
  | _ => false

/-- What the columns of an embedded value object begin with: by default the name of the field and
an underscore. -/
def embedPrefix (f : FieldModel) : String :=
  f.columnPrefix.getD (f.name ++ "_")

/-- A row's value made to fit the field. An array fits a field of many single values item by item; a
field of a type with constants takes the name of one. -/
def coerce (f : FieldModel) (constants : List String) (value : Value) : Except Rejection Value :=
  if value.isNull then .ok .null
  else match f.cls with
    | .scalar type =>
      match value with
      | .array items =>
        if f.cardinality.isMany then Value.coerceItems type items else value.coerce type
      | _ => value.coerce type
    | .enumeration _ => value.constant constants
    | _ => .ok value

end FieldModel

/-! ## Types -/

/-- What one type declares itself. -/
structure TypeLayer where
  name : String
  simpleName : String
  table : Option TableName
  fields : List FieldModel
  subclasses : List String
  discriminator : Option String
  discriminatorValue : Option String
  constants : List String
  isEnum : Bool
  embeddable : Bool
  joins : List String
  groupBy : List String
  deriving DecidableEq, Repr

/-- A described type: its own layer and those of its ancestors, the nearest first. -/
structure TypeModel extends TypeLayer where
  ancestors : List TypeLayer
  deriving DecidableEq, Repr

namespace TypeModel

/-- A layer on top of a parent, or on its own. -/
def extending (own : TypeLayer) (parent : Option TypeModel) : TypeModel :=
  match parent with
  | none => ⟨own, []⟩
  | some p => ⟨own, p.toTypeLayer :: p.ancestors⟩

/-- The type that this one extends. -/
def superclass? (t : TypeModel) : Option TypeModel :=
  match t.ancestors with
  | [] => none
  | parent :: above => some ⟨parent, above⟩

/-- A layer extends its parent. -/
@[simp]
theorem superclass?_extending (own : TypeLayer) (parent : Option TypeModel) :
    (extending own parent).superclass? = parent := by
  cases parent <;> rfl

/-! ## Ancestry -/

/-- The layers of the type, the root-most first. -/
def layers (t : TypeModel) : List TypeLayer :=
  (t.toTypeLayer :: t.ancestors).reverse

/-- A layer and those above it as types, the nearest first. -/
def upward (own : TypeLayer) : List TypeLayer → List TypeModel
  | [] => [⟨own, []⟩]
  | parent :: above => ⟨own, parent :: above⟩ :: upward parent above

/-- The type and its ancestors, the root-most first. -/
def lineage (t : TypeModel) : List TypeModel :=
  (upward t.toTypeLayer t.ancestors).reverse

/-- The lineage consists of the layers. -/
theorem map_lineage (t : TypeModel) : t.lineage.map toTypeLayer = t.layers := by
  have up : ∀ (above : List TypeLayer) (own : TypeLayer),
      (upward own above).map toTypeLayer = own :: above := by
    intro above
    induction above with
    | nil => intro own; rfl
    | cons parent rest ih => intro own; simp [upward, ih]
  simp [lineage, layers, up]

/-- The inherited fields and then the type's own. -/
def allFields (t : TypeModel) : List FieldModel :=
  t.layers.flatMap (·.fields)

/-- The fields of the primary key, the inherited ones first. -/
def idFields (t : TypeModel) : List FieldModel :=
  t.allFields.filter (·.id)

/-- The field of a name, looked for in the type before its ancestors. -/
def field? (t : TypeModel) (name : String) : Option FieldModel :=
  (t.toTypeLayer :: t.ancestors).findSome? fun layer => layer.fields.find? (·.name == name)

/-- Whether the type is the named one or extends it. -/
def isA (t : TypeModel) (name : String) : Bool :=
  (t.toTypeLayer :: t.ancestors).any (·.name == name)

/-! ## Tables -/

/-- Whether the type or an ancestor declares a table. -/
def isMapped (t : TypeModel) : Bool :=
  (t.toTypeLayer :: t.ancestors).any (·.table.isSome)

/-! ## Names -/

/-- What a discriminator column holds for the type. -/
def registeredName (t : TypeModel) : String :=
  t.discriminatorValue.getD t.simpleName

end TypeModel

end Orm.Schema
