import Orm.Plan.Basic
import Orm.Sql.Reference

/-!
# `Orm.Plan.Walk` — a plan is built by walking a type

The walk goes depth first through the fields of a type, in the order of their declaration and
ancestors before subclasses. On its way it names tables, fills the select list and collects what the
objects are made of, all in one draft.

The root is named by its table, and a relation by the path of the entity it hangs off and its own
name, of which the root contributes nothing. A value object lends its name to the relations inside
it and gets no alias. Further levels of an entity are named `<entity path>.<table>` and link tables
`<relation path>_link`.

A type is not walked inside itself, so the walk is never deeper than there are types.

## Contents
- **Drafts.** `Draft`, `Walk` and its steps `addAlias`, `registerColumn`, `addSelect`, `addGroup`,
  `nextEntity`, `addLate`.
- **Scopes.** `Scope`, `joinPath`, `enter`.
- **Fields.** `walkColumn`, `walkEmbedded`, `walkRelation`, `walkFields`.
- **Entities.** `PlacedLevel`, `walkLevels`, `walkEntity`.
- **Plans.** `walkField`, `Plan.build`.
-/

namespace Orm.Plan

open Sql Schema

/-! ## Drafts -/

/-- What the walk has produced so far. -/
structure Draft where
  aliases : List Alias := []
  select : List SelectItem := []
  groupBy : List Expression := []
  restriction : Option Restriction := none
  /-- The number of entities met. -/
  entityCount : Nat := 0
  /-- Joins of types, for the end of the statement's joins. -/
  lateJoins : List String := []
  /-- Grouping terms of types, for the end of the statement's grouping. -/
  lateGroups : List String := []

/-- A step of the walk. -/
abbrev Walk := StateT Draft (Except Error)

/-- A table under a path that is not taken. -/
def addAlias (a : Alias) : Walk Unit := do
  let d ← get
  if d.aliases.any (·.path == a.path) then throw (.duplicateAlias a.path)
  else set { d with aliases := d.aliases ++ [a] }

/-- The columns of an alias with one more, unless the field has one. -/
def Alias.withColumn (a : Alias) (fieldPath column : String) : Alias :=
  if (a.column? fieldPath).isSome then a
  else { a with columns := a.columns ++ [(fieldPath, column)] }

/-- The column of a field stored in a table. -/
def registerColumn (path fieldPath column : String) : Walk Unit :=
  modify fun d => { d with
    aliases := d.aliases.map fun a => if a.path == path then a.withColumn fieldPath column else a }

/-- An entry of the select list, unless its label is taken. -/
def addSelect (expression : Expression) (label : String) : Walk Unit :=
  modify fun d =>
    if d.select.any (·.label == label) then d
    else { d with select := d.select ++ [⟨expression, label⟩] }

/-- A grouping term, if there is to be one. -/
def addGroup (wanted : Bool) (expression : Expression) : Walk Unit :=
  modify fun d => if wanted then { d with groupBy := d.groupBy ++ [expression] } else d

/-- A limit on the rows of the root. -/
def setRestriction (restriction : Option Restriction) : Walk Unit :=
  modify fun d => { d with restriction := restriction }

/-- The position of the next entity. -/
def nextEntity : Walk Nat := do
  let d ← get
  set { d with entityCount := d.entityCount + 1 }
  return d.entityCount

/-- A text of a type with `this` standing for the path of its entity. -/
def anchored (path sql : String) : Walk String :=
  liftM (rebase [("this", path)] sql)

/-- Joins and grouping terms of types, for the end of the statement. -/
def addLate (path : String) : List TypeLayer → Walk Unit
  | [] => return
  | t :: rest => do
    let joins ← t.joins.mapM (anchored path)
    let groups ← t.groupBy.mapM (anchored path)
    modify fun d => { d with
      lateJoins := d.lateJoins ++ joins, lateGroups := d.lateGroups ++ groups }
    addLate path rest

/-! ## Scopes -/

/-- Where the fields being walked live. -/
structure Scope where
  entityPath : String
  /-- The alias of the table that stores the fields. -/
  levelAlias : String
  /-- The name of that table. -/
  ownerTable : String
  /-- The key of the entity. -/
  ownerIds : List FieldModel
  /-- What labels begin with. -/
  labelBase : String
  /-- What field paths begin with, with the point after it. -/
  fieldBase : String
  /-- What columns begin with. -/
  columnPrefix : String
  /-- What the paths of relations begin with. -/
  relationBase : String
  /-- The types on the way from the root to here. -/
  walking : List String

/-- A name below a path; below nothing it stands alone. -/
def joinPath (base name : String) : String :=
  if base.isEmpty then name else base ++ "." ++ name

/-- The scope of the fields of a value object. -/
def Scope.inside (scope : Scope) (f : FieldModel) (target : TypeModel) : Scope :=
  { scope with
    labelBase := scope.labelBase ++ "." ++ f.name
    fieldBase := scope.fieldBase ++ f.name ++ "."
    columnPrefix := scope.columnPrefix ++ f.embedPrefix
    relationBase := joinPath scope.relationBase f.name
    walking := scope.walking ++ [target.name] }

/-- A field leads back to a type that is being walked. -/
def cyclic (scope : Scope) (f : FieldModel) (target : TypeModel) : Error :=
  .cyclicField f.owner f.name scope.entityPath target.name

/-- The type that a field leads to, which must not be on the way already. -/
def enter (s : Schema) (scope : Scope) (f : FieldModel) (name : String) : Walk TypeModel := do
  let target ← liftM (s.describe name)
  if scope.walking.contains target.name then throw (cyclic scope f target)
  return target

/-- The only key field of a type. -/
def singleKey (type : String) (ids : List FieldModel) : Except Error FieldModel :=
  match ids with
  | [id] => .ok id
  | _ => .error (.noSingleKey type ids.length)

/-! ## Fields -/

/-- The label of a single value. -/
def Scope.label (scope : Scope) (f : FieldModel) : String :=
  scope.labelBase ++ "." ++ f.name

/-- Whether a field is selected with the key of its level. -/
def Scope.isKey (scope : Scope) (f : FieldModel) : Bool :=
  f.id && scope.columnPrefix.isEmpty && f.sql.isNone

/-- What a single value that is not part of the key is read from. -/
def columnExpression (scope : Scope) (f : FieldModel) : Walk Expression :=
  match f.sql with
  | some sql => Expression.raw <$> anchored scope.entityPath sql
  | none => do
    let column := scope.columnPrefix ++ f.column
    registerColumn scope.levelAlias (scope.fieldBase ++ f.name) column
    return .column ⟨scope.levelAlias, column⟩

/-- A single value. -/
def walkColumn (scope : Scope) (f : FieldModel) : Walk Members := do
  if scope.isKey f then
    addGroup f.groupBy (.column ⟨scope.levelAlias, f.column⟩)
  else
    let expression ← columnExpression scope f
    addGroup f.groupBy expression
    addSelect expression (scope.label f)
  return .column f (scope.label f) .nil

/-- The fields of a type that are stored, one after the other. -/
def walkFields (walk : FieldModel → Walk Members) : List FieldModel → Walk Members
  | [] => return .nil
  | f :: rest =>
    if f.transient then walkFields walk rest
    else do
      let here ← walk f
      let later ← walkFields walk rest
      return here ++ later

/-- A value object. -/
def walkEmbedded (walk : Scope → FieldModel → Walk Members) (scope : Scope) (f : FieldModel)
    (target : TypeModel) : Walk Members := do
  let inner ← walkFields (walk (scope.inside f target)) target.allFields
  return .embedded f target inner .nil

/-- How a field reaches its target. -/
def relationKind (f : FieldModel) : RelationKind :=
  if !f.cardinality.isMany then .toOne
  else if f.link.isSome then .toManyLinked
  else .toManyDirect

/-- The path of the link table of a relation. -/
def linkPath (childPath : String) : String :=
  childPath ++ "_link"

/-- The link table of a relation, joined to the key of the owner. -/
def linkAlias (scope : Scope) (f : FieldModel) (link : LinkTable) (childPath : String) :
    Except Error Alias := do
  let ownerId ← singleKey f.owner scope.ownerIds
  let path := linkPath childPath
  let ownerColumn := link.ownerColumn.getD (scope.ownerTable ++ "_id")
  return {
    path := path
    table := link.table
    role := .link
    relation := some (f, .toManyLinked)
    join := some {
      parent := scope.levelAlias
      type := .left
      condition := .columns [(⟨path, ownerColumn⟩, ⟨scope.levelAlias, ownerId.column⟩)]
      restriction := none }
    columns := []
    levels := [] }

/-- The condition that joins the target of a relation, inferred from the keys. -/
def inferredCondition (scope : Scope) (f : FieldModel) (target : TypeModel) (targetTable : String)
    (childPath : String) : Except Error Condition :=
  match relationKind f with
  | .toOne => do
    let targetId ← singleKey target.name target.idFields
    let foreignKey := f.joinColumn.getD (f.name ++ "_id")
    return .columns [(⟨childPath, targetId.column⟩,
      ⟨scope.levelAlias, scope.columnPrefix ++ foreignKey⟩)]
  | .toManyDirect => do
    let ownerId ← singleKey f.owner scope.ownerIds
    let foreignKey := f.joinColumn.getD (scope.ownerTable ++ "_id")
    return .columns [(⟨childPath, foreignKey⟩, ⟨scope.levelAlias, ownerId.column⟩)]
  | .toManyLinked => do
    let targetId ← singleKey target.name target.idFields
    let targetColumn := (f.link.bind (·.targetColumn)).getD (targetTable ++ "_id")
    return .columns [(⟨childPath, targetId.column⟩, ⟨linkPath childPath, targetColumn⟩)]

/-- The condition that joins the target of a relation: the declared one, in which `this`,
`linktable` and the name of the field stand for the tables, or else the inferred one. -/
def relationCondition (scope : Scope) (f : FieldModel) (target : TypeModel) (targetTable : String)
    (childPath : String) : Except Error Condition :=
  match f.joinCondition with
  | some custom =>
    Condition.raw <$> rebase [("this", scope.entityPath), ("linktable", linkPath childPath),
      (f.name, childPath)] custom
  | none => inferredCondition scope f target targetTable childPath

/-! ## Entities -/

/-- A level of an entity with its alias. -/
structure PlacedLevel where
  level : Level
  role : LevelRole
  path : String

/-- A level beside the main one, with its alias. -/
def placedBeside (path : String) (role : LevelRole) (l : Level) : PlacedLevel :=
  ⟨l, role, path ++ "." ++ l.table.name⟩

/-- The levels of an entity without the main one. -/
def sideLevels (path : String) (layout : Layout) : List PlacedLevel :=
  layout.above.map (placedBeside path .ancestor) ++ layout.below.map (placedBeside path .subclass)

/-- The levels of an entity with their aliases; the main one has that of the entity. -/
def placedLevels (path : String) (layout : Layout) : List PlacedLevel :=
  layout.above.map (placedBeside path .ancestor) ++
    ⟨layout.main, .ancestor, path⟩ :: layout.below.map (placedBeside path .subclass)

/-- How an entity is joined to the one it hangs off: the field, its kind and the join. -/
structure Attachment where
  field : FieldModel
  kind : RelationKind
  join : Join

/-- The limit on the rows of an entity. -/
def entityRestriction (path : String) (layout : Layout) : Option Restriction :=
  layout.discrimination.bind fun d => d.restrictTo.map fun values => ⟨⟨path, d.column⟩, values⟩

/-- The alias of the main level of an entity. -/
def entityAlias (path : String) (layout : Layout) (attachment : Option Attachment) : Alias where
  path := path
  table := layout.main.table
  role := .entity layout.declared
  relation := attachment.map fun a => (a.field, a.kind)
  join := attachment.map fun a => { a.join with restriction := entityRestriction path layout }
  columns := []
  levels := (sideLevels path layout).map (·.path)

/-- The alias of another level of an entity, joined to the main one on the key. An ancestor of the
root is there for every row. -/
def levelAlias (path : String) (ids : List FieldModel) (isRoot : Bool) (p : PlacedLevel) :
    Alias where
  path := p.path
  table := p.level.table
  role := .level p.level.owner
  relation := none
  join := some {
    parent := path
    type := if p.role = .ancestor ∧ isRoot then .inner else .left
    condition := .columns (ids.map fun id => (⟨p.path, id.column⟩, ⟨path, id.column⟩))
    restriction := none }
  columns := []
  levels := []

/-- Aliases, one after the other. -/
def addAliases : List Alias → Walk Unit
  | [] => return
  | a :: rest => do
    addAlias a
    addAliases rest

/-- The discriminator column of an entity, selected. -/
def walkDiscriminator (path : String) (layout : Layout) : Walk (Option DiscriminatorPlan) :=
  match layout.discrimination with
  | none => return none
  | some d => do
    let label := path ++ "." ++ d.column
    addSelect (.column ⟨path, d.column⟩) label
    return some ⟨label, layout.declared, d.candidates⟩

/-- The key of a level, selected. -/
def walkKeys (path : String) : List FieldModel → Walk Unit
  | [] => return
  | id :: rest => do
    addSelect (.column ⟨path, id.column⟩) (path ++ "." ++ id.name)
    registerColumn path id.name id.column
    walkKeys path rest

/-- The levels of an entity, each with its key before its fields. -/
def walkLevels (walk : Scope → FieldModel → Walk Members) (scopeOf : PlacedLevel → Scope)
    (ids : List FieldModel) : List PlacedLevel → Walk Members
  | [] => return .nil
  | p :: rest => do
    walkKeys p.path ids
    let here ← walkFields (walk (scopeOf p)) p.level.fields
    let later ← walkLevels walk scopeOf ids rest
    return here ++ later

/-- The scope of the fields of a level. -/
def levelScope (path relationBase : String) (ids : List FieldModel) (walking : List String)
    (p : PlacedLevel) : Scope where
  entityPath := path
  levelAlias := p.path
  ownerTable := p.level.table.name
  ownerIds := ids
  labelBase := p.path
  fieldBase := ""
  columnPrefix := ""
  relationBase := relationBase
  walking := walking

/-- The levels of an entity as its objects are read from them. -/
def levelPlan (ids : List FieldModel) (p : PlacedLevel) : LevelPlan where
  path := p.path
  owner := p.level.owner
  role := p.role
  keyLabels := ids.map fun id => p.path ++ "." ++ id.name

/-- An entity under a path: its tables, its key, its fields, and the joins of its types. -/
def walkEntity (walk : Scope → FieldModel → Walk Members) (path relationBase : String)
    (walking : List String) (layout : Layout) (attachment : Option Attachment) : Walk Entity := do
  let declared := layout.declared
  let ids := declared.idFields
  let placed := placedLevels path layout
  if 1 < placed.length ∧ ids.isEmpty then throw (.noHierarchyKey declared.name)
  if attachment.isNone then setRestriction (entityRestriction path layout)
  addAlias (entityAlias path layout attachment)
  addAliases ((sideLevels path layout).map (levelAlias path ids attachment.isNone))
  let discriminator ← walkDiscriminator path layout
  let index ← nextEntity
  let scopeOf := levelScope path relationBase ids (walking ++ [declared.name])
  let members ← walkLevels walk scopeOf ids placed
  addLate path declared.layers
  return {
    head := {
      index := index
      path := path
      declared := declared
      strategy := layout.strategy
      levels := placed.map (levelPlan ids)
      mainIndex := layout.mainIndex
      discriminator := discriminator }
    members := members }

/-- A relation: its link table, if it has one, and the entity it leads to. -/
def walkRelation (s : Schema) (walk : Scope → FieldModel → Walk Members) (scope : Scope)
    (f : FieldModel) (target : TypeModel) : Walk Members := do
  let layout ← liftM (s.layout target)
  let childPath := joinPath scope.relationBase f.name
  let kind := relationKind f
  match kind, f.link with
  | .toManyLinked, some link => addAlias (← liftM (linkAlias scope f link childPath))
  | _, _ => pure ()
  let condition ← liftM (relationCondition scope f target layout.main.table.name childPath)
  let parent := if kind = .toManyLinked then linkPath childPath else scope.levelAlias
  let child ← walkEntity walk childPath childPath scope.walking layout
    (some ⟨f, kind, ⟨parent, .left, condition, none⟩⟩)
  return .relation f kind child.head child.members .nil

/-! ## Plans -/

/-- A field, with a way to walk the fields below it unless the walk is as deep as it may be. -/
def walkFieldBy (s : Schema) (deeper : Option (Scope → FieldModel → Walk Members)) (scope : Scope)
    (f : FieldModel) : Walk Members :=
  match f.cls with
  | .scalar _ | .enumeration _ => walkColumn scope f
  | .embedded name => do
    let target ← enter s scope f name
    match deeper with
    | some walk => walkEmbedded walk scope f target
    | none => throw (cyclic scope f target)
  | .relation name => do
    let target ← enter s scope f name
    match deeper with
    | some walk => walkRelation s walk scope f target
    | none => throw (cyclic scope f target)

/-- A field, down to a depth. -/
def walkField (s : Schema) : Nat → Scope → FieldModel → Walk Members
  | 0 => walkFieldBy s none
  | depth + 1 => walkFieldBy s (some (walkField s depth))

end Orm.Plan

namespace Orm

open Plan

/-- The plan for a type. Every step down meets a type that is not on the way yet, so the walk is not
deeper than the schema is large. -/
def Plan.build (s : Schema) (name : String) : Except Error Plan := do
  let declared ← s.describe name
  let layout ← s.layout declared
  let (root, draft) ←
    (walkEntity (walkField s s.size) layout.main.table.name "" [] layout none).run {}
  return {
    aliases := draft.aliases
    select := draft.select
    extraJoins := draft.lateJoins
    groupBy := draft.groupBy ++ draft.lateGroups.map .raw
    restriction := draft.restriction
    root := some root }

end Orm
