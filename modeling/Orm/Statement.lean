import Orm.Plan.Resolve
import Orm.Sql.Fragment
import Orm.Sql.Placeholder

/-!
# `Orm.Statement` — the statement of a plan

A statement is put together from pieces, one per line, with references and markers still in it. Then
the references of the whole text are resolved, and last its markers become placeholders. Names of
discriminators are bound as parameters, never written into the text.

## Contents
- **Clauses.** `Clauses`, what a caller adds to a plan.
- **Pieces.** `selectPiece`, `fromPiece`, `joinPiece`, `wherePiece`, `groupPiece`, `orderPiece`,
  `limitPieces`.
- **Statements.** `Plan.assemble`, `Plan.render`.
-/

namespace Orm

open Text Sql Plan

/-! ## Clauses -/

/-- What a caller adds to the statement of a plan. -/
structure Clauses where
  filters : List Fragment := []
  groupBy : List Fragment := []
  orderBy : List Fragment := []
  limit : Option Nat := none
  offset : Option Nat := none
  /-- The values of named markers; of two under one name the first counts. -/
  named : List (String × Value) := []

namespace Clauses

/-- One more condition. -/
def filter (c : Clauses) (condition : Fragment) : Clauses :=
  { c with filters := c.filters ++ [condition] }

/-- One more grouping term. -/
def group (c : Clauses) (term : Fragment) : Clauses :=
  { c with groupBy := c.groupBy ++ [term] }

/-- One more ordering term. -/
def order (c : Clauses) (term : Fragment) : Clauses :=
  { c with orderBy := c.orderBy ++ [term] }

/-- A value for a named marker, in place of an earlier one. -/
def bind (c : Clauses) (name : String) (value : Value) : Clauses :=
  { c with named := (name, value) :: c.named }

end Clauses

namespace Plan

/-! ## Pieces -/

/-- A column under its alias. -/
def columnText (d : Dialect) (c : ColumnRef) : String :=
  d.label c.path ++ "." ++ d.name c.column

/-- What is selected or grouped by. -/
def expressionText (d : Dialect) : Expression → String
  | .column ref => columnText d ref
  | .raw sql => sql

/-- An entry of the select list. -/
def itemText (d : Dialect) (item : SelectItem) : String :=
  expressionText d item.expression ++ " AS " ++ d.label item.label

/-- A table under its alias. -/
def tableText (d : Dialect) (a : Alias) : String :=
  d.table a.table ++ " AS " ++ d.label a.path

/-- The select list. -/
def selectPiece (p : Plan) (d : Dialect) : Fragment :=
  .plain ("SELECT " ++ joinWith ", " (p.select.map (itemText d)))

/-- The root table. -/
def fromPiece (d : Dialect) (root : Alias) : Fragment :=
  .plain ("FROM " ++ tableText d root)

/-- A column limited to some names, which are bound. -/
def restrictionPiece (d : Dialect) (r : Restriction) : Fragment :=
  ⟨columnText d r.column ++ " IN (" ++ joinWith ", " (r.values.map fun _ => "?") ++ ")",
    r.values.map .text⟩

/-- The condition of a join. -/
def conditionText (d : Dialect) : Condition → String
  | .columns pairs =>
    joinWith " AND " (pairs.map fun p => columnText d p.1 ++ " = " ++ columnText d p.2)
  | .raw sql => sql

/-- A joined table. -/
def joinPiece (d : Dialect) (a : Alias) (join : Join) : Fragment :=
  let clause := Fragment.plain (join.type.keyword ++ " " ++ tableText d a ++ " ON " ++
    conditionText d join.condition)
  match join.restriction with
  | none => clause
  | some r => (clause.append (.plain " AND ")).append (restrictionPiece d r)

/-- The joined tables in order. -/
def joinPieces (d : Dialect) (aliases : List Alias) : List Fragment :=
  aliases.filterMap fun a => a.join.map (joinPiece d a)

/-- The conditions on rows: a single one as it is, several in parentheses. Blank ones are left
out. -/
def wherePiece (p : Plan) (d : Dialect) (c : Clauses) : List Fragment :=
  let limits := (p.restriction.map (restrictionPiece d)).toList
  match limits ++ c.filters.filter (!·.isBlank) with
  | [] => []
  | [condition] => [(Fragment.plain "WHERE ").append condition]
  | conditions =>
    [(Fragment.plain "WHERE ").append (.join " AND " (conditions.map .parenthesized))]

/-- A keyword and the terms after it, if there are any. -/
def listPiece (keyword : String) (terms : List Fragment) : List Fragment :=
  if terms.isEmpty then [] else [(Fragment.plain keyword).append (.join ", " terms)]

/-- The grouping terms: those of the plan, then the caller's. -/
def groupPiece (p : Plan) (d : Dialect) (c : Clauses) : List Fragment :=
  listPiece "GROUP BY " (p.groupBy.map (fun e => .plain (expressionText d e)) ++ c.groupBy)

/-- The ordering terms. -/
def orderPiece (c : Clauses) : List Fragment :=
  listPiece "ORDER BY " c.orderBy

/-- How many rows, and from which on. -/
def limitPieces (c : Clauses) : List Fragment :=
  (c.limit.map fun n => Fragment.plain ("LIMIT " ++ String.ofList (decimal n))).toList ++
    (c.offset.map fun n => Fragment.plain ("OFFSET " ++ String.ofList (decimal n))).toList

/-! ## Statements -/

/-- The pieces of a statement in order. -/
def pieces (p : Plan) (d : Dialect) (c : Clauses) (root : Alias) (joined : List Alias) :
    List Fragment :=
  [p.selectPiece d, fromPiece d root] ++ joinPieces d joined ++ p.extraJoins.map .plain ++
    p.wherePiece d c ++ p.groupPiece d c ++ orderPiece c ++ limitPieces c

/-- The statement with references and markers in it. -/
def assemble (p : Plan) (d : Dialect) (c : Clauses) : Except Error Fragment :=
  match p.aliases with
  | [] => .error .emptyPlan
  | root :: joined => .ok (.join "\n" (p.pieces d c root joined))

/-- The statement of a plan. -/
def render (p : Plan) (d : Dialect) (c : Clauses) : Except Error Statement := do
  let assembled ← p.assemble d c
  let resolved ← p.resolveText d assembled.text
  bindParameters d c.named assembled.params resolved

end Plan

end Orm
