import Orm.Schema.Layout

/-!
# `Orm.Plan.Basic` — the plan of a query

A plan is what a statement and the objects read from its rows have in common: the joined tables under
their aliases, the labelled select list, and for every entity what its objects are made of. An alias
is named by a dotted path, a label is the path of an alias and the name of a field.

The members of objects form a tree that is written as one inductive type: each node is one member,
followed by the rest of its siblings, and a node that has members of its own carries them. The tree
is therefore walked by plain structural recursion.

## Contents
- **Aliases.** `ColumnRef`, `Condition`, `Restriction`, `Join`, `Alias`.
- **Select list.** `Expression`, `SelectItem`.
- **Members.** `EntityHead`, `Members` and its three views, `Members.allLabels`.
- **Plans.** `Plan`, `Plan.find?`, `Plan.entities`.
-/

namespace Orm.Plan

open Sql Schema

/-! ## Aliases -/

/-- A column of an aliased table. -/
structure ColumnRef where
  path : String
  column : String
  deriving DecidableEq, Repr

/-- What two tables are joined on. -/
inductive Condition where
  /-- All pairs of columns are equal. -/
  | columns (pairs : List (ColumnRef × ColumnRef))
  /-- A text with references. -/
  | raw (sql : String)
  deriving DecidableEq, Repr

/-- A discriminator column limited to some names. -/
structure Restriction where
  column : ColumnRef
  values : List String
  deriving DecidableEq, Repr

/-- Whether rows without a partner are dropped. -/
inductive JoinType where
  | inner
  | left
  deriving DecidableEq, Repr

/-- The keyword of a join. -/
def JoinType.keyword : JoinType → String
  | .inner => "INNER JOIN"
  | .left => "LEFT JOIN"

/-- How a table is joined to one before it. -/
structure Join where
  /-- The alias that the table hangs off. -/
  parent : String
  type : JoinType
  condition : Condition
  /-- A limit on the rows of the joined table. -/
  restriction : Option Restriction
  deriving DecidableEq, Repr

/-- How a relation reaches its target. -/
inductive RelationKind where
  /-- The owner has the foreign key. -/
  | toOne
  /-- The target has the foreign key. -/
  | toManyDirect
  /-- A link table has both keys. -/
  | toManyLinked
  deriving DecidableEq, Repr

/-- Whether the relation leads to many objects. -/
def RelationKind.isMany : RelationKind → Bool
  | .toOne => false
  | _ => true

/-- What a table is in a plan for. -/
inductive AliasRole where
  /-- The main table of an entity of a type. -/
  | entity (type : TypeModel)
  /-- Another level of an entity; the type declares it. -/
  | level (owner : TypeModel)
  /-- The table between an entity and the many it is related to. -/
  | link
  deriving DecidableEq, Repr

/-- A table of a plan. -/
structure Alias where
  path : String
  table : TableName
  role : AliasRole
  /-- The relation that led to the table, if one did. -/
  relation : Option (FieldModel × RelationKind)
  /-- How the table is joined; the root is not. -/
  join : Option Join
  /-- The physical columns of the fields stored in the table, by the path of the field. -/
  columns : List (String × String)
  /-- The other levels of the entity. -/
  levels : List String
  deriving DecidableEq, Repr

namespace Alias

/-- The physical column of a field. -/
def column? (a : Alias) (fieldPath : String) : Option String :=
  a.columns.lookup fieldPath

/-- The alias that the table hangs off. -/
def parent? (a : Alias) : Option String :=
  a.join.map (·.parent)

end Alias

/-! ## Select list -/

/-- What is selected or grouped by. -/
inductive Expression where
  | column (ref : ColumnRef)
  | raw (sql : String)
  deriving DecidableEq, Repr

/-- An entry of the select list. -/
structure SelectItem where
  expression : Expression
  label : String
  deriving DecidableEq, Repr

/-! ## Members -/

/-- A level of an entity: its alias, its owner, and the labels of its key columns. -/
structure LevelPlan where
  path : String
  owner : TypeModel
  role : LevelRole
  keyLabels : List String
  deriving DecidableEq, Repr

/-- How the type of a row of a discriminated entity is told. -/
structure DiscriminatorPlan where
  label : String
  /-- The type of a row with an unknown name. -/
  fallback : TypeModel
  candidates : List TypeModel
  deriving DecidableEq, Repr

/-- An entity of a plan apart from its members. -/
structure EntityHead where
  /-- The position of the entity among the entities of the plan. -/
  index : Nat
  path : String
  declared : TypeModel
  strategy : Strategy
  levels : List LevelPlan
  /-- The position of the main level. -/
  mainIndex : Nat
  discriminator : Option DiscriminatorPlan
  deriving DecidableEq, Repr

/-- The labels of the entity's key. -/
def EntityHead.keyLabels (e : EntityHead) : List String :=
  ((e.levels[e.mainIndex]?).map (·.keyLabels)).getD []

/-- What an object is made of, in the order of the fields. -/
inductive Members where
  | nil
  /-- A single value under a label. -/
  | column (field : FieldModel) (label : String) (rest : Members)
  /-- A value object of a type, and what it is made of. -/
  | embedded (field : FieldModel) (target : TypeModel) (inner rest : Members)
  /-- A relation to another entity, and what that is made of. -/
  | relation (field : FieldModel) (kind : RelationKind) (child : EntityHead)
      (inner rest : Members)
  deriving DecidableEq, Repr

namespace Members

/-- Members followed by others. -/
def append : Members → Members → Members
  | .nil, more => more
  | .column f label rest, more => .column f label (rest.append more)
  | .embedded f t inner rest, more => .embedded f t inner (rest.append more)
  | .relation f k child inner rest, more => .relation f k child inner (rest.append more)

instance : Append Members := ⟨append⟩

/-- The single values. -/
def columns : Members → List (FieldModel × String)
  | .nil => []
  | .column f label rest => (f, label) :: rest.columns
  | .embedded _ _ _ rest => rest.columns
  | .relation _ _ _ _ rest => rest.columns

/-- The value objects. -/
def embeddeds : Members → List (FieldModel × TypeModel × Members)
  | .nil => []
  | .column _ _ rest => rest.embeddeds
  | .embedded f t inner rest => (f, t, inner) :: rest.embeddeds
  | .relation _ _ _ _ rest => rest.embeddeds

/-- The relations. -/
def relations : Members → List (FieldModel × RelationKind × EntityHead × Members)
  | .nil => []
  | .column _ _ rest => rest.relations
  | .embedded _ _ _ rest => rest.relations
  | .relation f k child inner rest => (f, k, child, inner) :: rest.relations

/-- The labels of the single values of value objects at any depth. -/
def embeddedLabels : Members → List String
  | .nil => []
  | .column _ _ rest => rest.embeddedLabels
  | .embedded _ _ inner rest =>
    inner.columns.map (·.2) ++ inner.embeddedLabels ++ rest.embeddedLabels
  | .relation _ _ _ _ rest => rest.embeddedLabels

/-- The labels of all single values: first those of the object, then those of its value objects. -/
def allLabels (m : Members) : List String :=
  m.columns.map (·.2) ++ m.embeddedLabels

/-- The entities that relations lead to at any depth, also out of value objects, in the order of
the fields. -/
def entities : Members → List (EntityHead × Members)
  | .nil => []
  | .column _ _ rest => rest.entities
  | .embedded _ _ inner rest => inner.entities ++ rest.entities
  | .relation _ _ child inner rest => (child, inner) :: (inner.entities ++ rest.entities)

/-- Nothing may stand in front. -/
@[simp]
theorem nil_append (m : Members) : .nil ++ m = m := rfl

/-- Nothing may stand behind. -/
@[simp]
theorem append_nil (m : Members) : m ++ .nil = m := by
  show m.append .nil = m
  induction m with
  | nil => rfl
  | column f label rest ih => simp [append, ih]
  | embedded f t inner rest _ ih => simp [append, ih]
  | relation f k child inner rest _ ih => simp [append, ih]

/-- The single values of members in sequence. -/
@[simp]
theorem columns_append (a b : Members) : (a ++ b).columns = a.columns ++ b.columns := by
  show (a.append b).columns = _
  induction a with
  | nil => rfl
  | column f label rest ih => simp [append, columns, ih]
  | embedded f t inner rest _ ih => simp [append, columns, ih]
  | relation f k child inner rest _ ih => simp [append, columns, ih]

/-- The value objects of members in sequence. -/
@[simp]
theorem embeddeds_append (a b : Members) : (a ++ b).embeddeds = a.embeddeds ++ b.embeddeds := by
  show (a.append b).embeddeds = _
  induction a with
  | nil => rfl
  | column f label rest ih => simp [append, embeddeds, ih]
  | embedded f t inner rest _ ih => simp [append, embeddeds, ih]
  | relation f k child inner rest _ ih => simp [append, embeddeds, ih]

/-- The relations of members in sequence. -/
@[simp]
theorem relations_append (a b : Members) : (a ++ b).relations = a.relations ++ b.relations := by
  show (a.append b).relations = _
  induction a with
  | nil => rfl
  | column f label rest ih => simp [append, relations, ih]
  | embedded f t inner rest _ ih => simp [append, relations, ih]
  | relation f k child inner rest _ ih => simp [append, relations, ih]

/-- The entities of members in sequence. -/
@[simp]
theorem entities_append (a b : Members) : (a ++ b).entities = a.entities ++ b.entities := by
  show (a.append b).entities = _
  induction a with
  | nil => rfl
  | column f label rest ih => simp [append, entities, ih]
  | embedded f t inner rest _ ih => simp [append, entities, ih]
  | relation f k child inner rest _ ih => simp [append, entities, ih]

@[simp]
theorem entities_embedded (f : FieldModel) (t : TypeModel) (inner : Members) :
    (embedded f t inner .nil).entities = inner.entities :=
  List.append_nil _

@[simp]
theorem entities_relation (f : FieldModel) (k : RelationKind) (child : EntityHead) (inner : Members) :
    (relation f k child inner .nil).entities = (child, inner) :: inner.entities :=
  congrArg _ (List.append_nil _)

end Members

/-- An entity: its head and its members. -/
structure Entity where
  head : EntityHead
  members : Members
  deriving DecidableEq, Repr

end Orm.Plan

namespace Orm

open Plan

/-! ## Plans -/

/-- The plan of a query. The empty plan has no root. -/
structure Plan where
  /-- The tables in the order of their joins; the first is the root. -/
  aliases : List Alias := []
  select : List SelectItem := []
  /-- Joins of types that are added as they are. -/
  extraJoins : List String := []
  groupBy : List Expression := []
  /-- A limit on the rows of the root. -/
  restriction : Option Restriction := none
  /-- The entity that the rows are about. -/
  root : Option Plan.Entity := none
  deriving DecidableEq, Repr

namespace Plan

/-- The alias with a path. -/
def find? (p : Plan) (path : String) : Option Alias :=
  p.aliases.find? (·.path == path)

/-- All entities, each before those it is related to. -/
def entities (p : Plan) : List Entity :=
  match p.root with
  | none => []
  | some root => root :: root.members.entities.map fun e => ⟨e.1, e.2⟩

end Plan

end Orm
