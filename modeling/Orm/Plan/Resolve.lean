import Orm.Plan.Basic
import Orm.Sql.Reference

/-!
# `Orm.Plan.Resolve` — references resolved against a plan

A reference names an alias, or an alias and a field of it. The longest path that is an alias counts;
what follows it is looked for among the fields of that alias, then among those of the other levels
of the entity, and is else a column's own name, unless it has a point in it.

## Contents
- **Resolving.** `Target`, `Plan.columnOf?`, `Plan.resolve?`.
- **Texts.** `Plan.resolveText`.
-/

namespace Orm

open Text Sql Plan

/-! ## Resolving -/

/-- What a reference stands for. -/
inductive Plan.Target where
  | table (path : String)
  | column (path column : String)
  deriving DecidableEq, Repr

namespace Plan

/-- The column that a field path stands for in an alias or another level of its entity, and the
alias it is in. -/
def columnOf? (p : Plan) (a : Alias) (fieldPath : String) : Option Target :=
  match a.column? fieldPath with
  | some column => some (.column a.path column)
  | none => a.levels.findSome? fun level =>
    (p.find? level).bind fun other => (other.column? fieldPath).map (.column level)

/-- What stands for the part of a name after its alias. -/
def fieldTarget? (p : Plan) (a : Alias) (rest : List Char) : Option Target :=
  match p.columnOf? a (String.ofList rest) with
  | some target => some target
  | none => if rest.contains '.' then none else some (.column a.path (String.ofList rest))

/-- What a name stands for when its splits at points are tried in turn: the first whose front is an
alias decides. -/
def resolveSplit? (p : Plan) : List (List Char × List Char) → Option Target
  | [] => none
  | (front, rest) :: more =>
    match p.find? (String.ofList front) with
    | some a => p.fieldTarget? a rest
    | none => p.resolveSplit? more

/-- What a reference stands for. -/
def resolve? (p : Plan) (name : String) : Option Target :=
  match p.find? name with
  | some _ => some (.table name)
  | none => p.resolveSplit? (splitsAt '.' name.toList).reverse

/-! ## Texts -/

/-- The text of a target in a dialect. -/
def Target.text (d : Dialect) : Target → String
  | .table path => d.label path
  | .column path name => d.label path ++ "." ++ d.name name

/-- The text that a reference is replaced by. -/
def referenceText (p : Plan) (d : Dialect) (name : String) : Except Error String :=
  match p.resolve? name with
  | some target => .ok (target.text d)
  | none => .error (.unresolvedReference name)

/-- A text with every reference replaced by the name of its table or column. -/
def resolveText (p : Plan) (d : Dialect) (text : String) : Except Error String :=
  substituteReferences (p.referenceText d) text

end Plan

end Orm
