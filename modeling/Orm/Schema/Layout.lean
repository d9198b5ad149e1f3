import Orm.Schema.Descent

/-!
# `Orm.Schema.Layout` — the tables that hold a type

The rows of a type are spread over the tables of its ancestry, one level per table, and over those of
its descendants. In a discriminated hierarchy one table holds them all, and a column names the type
of each row.

## Contents
- **Levels.** `Level`, `LevelRole`, `Discrimination`, `Strategy`.
- **Layouts.** `Layout`: the levels above, the main one and those below.
- **Resolving.** `ancestorLevels`, `Schema.layout`.
-/

namespace Orm.Schema

open Sql

/-! ## Levels -/

/-- Whether a level is there for every row of the type, or only for those of a subclass. -/
inductive LevelRole where
  | ancestor
  | subclass
  deriving DecidableEq, Repr

/-- A table that holds one level of a hierarchy. -/
structure Level where
  table : TableName
  /-- The type that declares the table. -/
  owner : TypeModel
  /-- The fields stored in the table. -/
  fields : List FieldModel
  deriving DecidableEq, Repr

/-- How the type of a row is told in a discriminated hierarchy. -/
structure Discrimination where
  column : String
  /-- The type that declares the column. -/
  base : TypeModel
  /-- The types that a row may have: the one asked for and then its descendants. -/
  candidates : List TypeModel
  /-- The names that rows are restricted to, when the type asked for is not the base. -/
  restrictTo : Option (List String)
  deriving DecidableEq, Repr

/-- The candidate registered under a name. -/
def Discrimination.candidate? (d : Discrimination) (name : String) : Option TypeModel :=
  d.candidates.find? (·.registeredName == name)

/-- How a hierarchy is spread over tables. -/
inductive Strategy where
  /-- One table and nothing to tell apart. -/
  | single
  /-- One table per level. -/
  | vertical
  /-- One table with a column that names the type. -/
  | discriminated
  deriving DecidableEq, Repr

/-! ## Layouts -/

/-- The tables of a type. There is always a main level, that of the most specific table of the
ancestry. -/
structure Layout where
  declared : TypeModel
  /-- The levels of the ancestry above the main one, the root-most first. -/
  above : List Level
  main : Level
  /-- The levels of the descendants, depth first. -/
  below : List Level
  discrimination : Option Discrimination
  deriving DecidableEq, Repr

namespace Layout

/-- All levels with their roles. -/
def levels (l : Layout) : List (Level × LevelRole) :=
  l.above.map (·, .ancestor) ++ (l.main, .ancestor) :: l.below.map (·, .subclass)

/-- The position of the main level. -/
def mainIndex (l : Layout) : Nat :=
  l.above.length

/-- The strategy that the levels amount to. -/
def strategy (l : Layout) : Strategy :=
  if l.discrimination.isSome then .discriminated
  else if l.above.isEmpty && l.below.isEmpty then .single
  else .vertical

/-- The main level stands at its position. -/
theorem getElem?_mainIndex (l : Layout) : l.levels[l.mainIndex]? = some (l.main, .ancestor) := by
  simp [levels, mainIndex]

end Layout

/-! ## Resolving -/

/-- One level per type with a table, and the fields left over. The fields of a type without a table
go to the next table below it; `pending` are those that have not found one yet. -/
def ancestorLevels (pending : List FieldModel) : List TypeModel → List Level × List FieldModel
  | [] => ([], pending)
  | t :: rest =>
    match t.table with
    | some table =>
      let below := ancestorLevels [] rest
      (⟨table, t, pending ++ t.fields⟩ :: below.1, below.2)
    | none => ancestorLevels (pending ++ t.fields) rest

/-- The last of some levels and those before it. -/
def splitLast? : List Level → Option (List Level × Level)
  | [] => none
  | level :: rest =>
    match splitLast? rest with
    | none => some ([], level)
    | some (front, last) => some (level :: front, last)

/-- The level of a descendant, which must have a table of its own. -/
def subclassLevel (declared : TypeModel) (sub : TypeModel) : Except Error Level :=
  match sub.table with
  | some table => .ok ⟨table, sub, sub.fields⟩
  | none => .error (.subclassWithoutTable sub.name declared.name)

variable (s : Schema)

/-- The layout of a type below or at the base of a discriminated hierarchy: the union of the fields
of all candidates lies in the most specific table of the ancestry. -/
def discriminatedLayout (declared : TypeModel) (home : Level) (base : TypeModel) :
    Except Error Layout := do
  let isBase := base.name == declared.name
  if !isBase then
    let group ← descendants s base
    if !group.any (·.name == declared.name) then
      .error (.unregisteredSubtype declared.name base.name)
  let below ← descendants s declared
  let candidates := declared :: below
  return {
    declared := declared
    above := []
    main := ⟨home.table, home.owner, declared.allFields ++ below.flatMap (·.fields)⟩
    below := []
    discrimination := some {
      column := base.discriminator.getD ""
      base := base
      candidates := candidates
      restrictTo := if isBase then none else some (candidates.map (·.registeredName)) } }

/-- The layout of a type. -/
def layout (declared : TypeModel) : Except Error Layout :=
  let found := ancestorLevels [] declared.lineage
  match splitLast? found.1 with
  | none => .error (.noTable declared.name)
  | some (above, last) =>
    match declared.lineage.find? (·.discriminator.isSome) with
    | some base => discriminatedLayout s declared last base
    | none => do
      let below ← descendants s declared
      let levels ← below.mapM (subclassLevel declared)
      return ⟨declared, above, { last with fields := last.fields ++ found.2 }, levels, none⟩

end Orm.Schema
