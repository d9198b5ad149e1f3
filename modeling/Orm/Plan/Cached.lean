import Orm.Plan.Walk
import Orm.Schema.Catalog

/-!
# `Orm.Plan.Cached` — a plan built on a catalog

A plan is built with the types that a catalog describes: that of the root, of each target on the way,
and of all descendants. The walk is that of a schema, in which each description is a request.

## Contents
- **Layouts.** `Catalog.layout`.
- **Steps.** `Catalog.Steps`, `Catalog.alone`, `Catalog.enter`.
- **The walk.** `Catalog.walkFields`, …, `Catalog.walkField`.
- **Plans.** `Catalog.build`.
-/

namespace Orm.Catalog

open Sql Schema Plan

/-! ## Layouts -/

/-- The layout of a type in a discriminated hierarchy. -/
def discriminatedLayout (declared : TypeModel) (home : Level) (base : TypeModel) :
    Cached Layout := do
  let isBase := base.name == declared.name
  if !isBase then
    let group ← descendants base
    if !group.any (·.name == declared.name) then
      throw (.unregisteredSubtype declared.name base.name)
  let below ← descendants declared
  let candidates := declared :: below
  return {
    declared := declared
    above := []
    main := ⟨home.table, home.owner, declared.allFields ++ below.flatMap (·.fields)⟩
    below := []
    discrimination := some {
      column := base.discriminator.getD ""
      base := base
      candidates := candidates
      restrictTo := if isBase then none else some (candidates.map (·.registeredName)) } }

/-- The layout of a type. -/
def layout (declared : TypeModel) : Cached Layout :=
  let found := ancestorLevels [] declared.lineage
  match splitLast? found.1 with
  | none => throw (.noTable declared.name)
  | some (above, last) =>
    match declared.lineage.find? (·.discriminator.isSome) with
    | some base => discriminatedLayout declared last base
    | none => do
      let below ← descendants declared
      let levels ← (below.mapM (subclassLevel declared) : Except Error (List Level))
      return ⟨declared, above, { last with fields := last.fields ++ found.2 }, levels, none⟩

/-! ## Steps -/

/-- Steps of the walk that may ask the catalog. -/
abbrev Steps := StateT Draft Cached

/-- Steps that ask the catalog nothing. -/
def alone {α : Type} (walk : Walk α) : Steps α :=
  fun d => .answer (walk d)

/-- The type that a field leads to, which must not be on the way already. -/
def enter (scope : Scope) (f : FieldModel) (name : String) : Steps TypeModel := do
  let target ← liftM (describe name)
  if scope.walking.contains target.name then throw (cyclic scope f target)
  return target

/-! ## The walk -/

/-- The fields of a type that are stored, one after the other. -/
def walkFields (walk : FieldModel → Steps Members) : List FieldModel → Steps Members
  | [] => return .nil
  | f :: rest =>
    if f.transient then walkFields walk rest
    else do
      let here ← walk f
      let later ← walkFields walk rest
      return here ++ later

/-- A value object. -/
def walkEmbedded (walk : Scope → FieldModel → Steps Members) (scope : Scope) (f : FieldModel)
    (target : TypeModel) : Steps Members := do
  let inner ← walkFields (walk (scope.inside f target)) target.allFields
  return .embedded f target inner .nil

/-- The levels of an entity, each with its key before its fields. -/
def walkLevels (walk : Scope → FieldModel → Steps Members) (scopeOf : PlacedLevel → Scope)
    (ids : List FieldModel) : List PlacedLevel → Steps Members
  | [] => return .nil
  | p :: rest => do
    alone (walkKeys p.path ids)
    let here ← walkFields (walk (scopeOf p)) p.level.fields
    let later ← walkLevels walk scopeOf ids rest
    return here ++ later

/-- An entity under a path. -/
def walkEntity (walk : Scope → FieldModel → Steps Members) (path relationBase : String)
    (walking : List String) (layout : Layout) (attachment : Option Attachment) : Steps Entity := do
  let declared := layout.declared
  let ids := declared.idFields
  let placed := placedLevels path layout
  if 1 < placed.length ∧ ids.isEmpty then throw (.noHierarchyKey declared.name)
  if attachment.isNone then alone (setRestriction (entityRestriction path layout))
  alone (addAlias (entityAlias path layout attachment))
  alone (addAliases ((sideLevels path layout).map (levelAlias path ids attachment.isNone)))
  let discriminator ← alone (walkDiscriminator path layout)
  let index ← alone nextEntity
  let scopeOf := levelScope path relationBase ids (walking ++ [declared.name])
  let members ← walkLevels walk scopeOf ids placed
  alone (addLate path declared.layers)
  return {
    head := {
      index := index
      path := path
      declared := declared
      strategy := layout.strategy
      levels := placed.map (levelPlan ids)
      mainIndex := layout.mainIndex
      discriminator := discriminator }
    members := members }

/-- A relation: its link table, if it has one, and the entity it leads to. -/
def walkRelation (walk : Scope → FieldModel → Steps Members) (scope : Scope) (f : FieldModel)
    (target : TypeModel) : Steps Members := do
  let layout ← liftM (layout target)
  let childPath := joinPath scope.relationBase f.name
  let kind := relationKind f
  match kind, f.link with
  | .toManyLinked, some link =>
    alone (addAlias (← alone (liftM (linkAlias scope f link childPath))))
  | _, _ => pure ()
  let condition ← alone (liftM (relationCondition scope f target layout.main.table.name childPath))
  let parent := if kind = .toManyLinked then linkPath childPath else scope.levelAlias
  let child ← walkEntity walk childPath childPath scope.walking layout
    (some ⟨f, kind, ⟨parent, .left, condition, none⟩⟩)
  return .relation f kind child.head child.members .nil

/-- A field, with a way to walk the fields below it unless the walk is as deep as it may be. -/
def walkFieldBy (deeper : Option (Scope → FieldModel → Steps Members)) (scope : Scope)
    (f : FieldModel) : Steps Members :=
  match f.cls with
  | .scalar _ | .enumeration _ => alone (walkColumn scope f)
  | .embedded name => do
    let target ← enter scope f name
    match deeper with
    | some walk => walkEmbedded walk scope f target
    | none => throw (cyclic scope f target)
  | .relation name => do
    let target ← enter scope f name
    match deeper with
    | some walk => walkRelation walk scope f target
    | none => throw (cyclic scope f target)

/-- A field, down to a depth. -/
def walkField : Nat → Scope → FieldModel → Steps Members
  | 0 => walkFieldBy none
  | depth + 1 => walkFieldBy (some (walkField depth))

/-! ## Plans -/

/-- The plan for a type. -/
def build (name : String) : Cached Plan := do
  let s ← declarations
  let declared ← describe name
  let layout ← layout declared
  let (root, draft) ←
    (walkEntity (walkField s.size) layout.main.table.name "" [] layout none).run {}
  return {
    aliases := draft.aliases
    select := draft.select
    extraJoins := draft.lateJoins
    groupBy := draft.groupBy ++ draft.lateGroups.map .raw
    restriction := draft.restriction
    root := some root }

end Orm.Catalog
