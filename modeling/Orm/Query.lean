import Orm.Assembly.Stream
import Orm.Config
import Orm.Plan.Walk
import Orm.Statement

/-!
# `Orm.Query` — from a type to its objects

A query names a type and what rows of it are wanted. It is compiled into a plan and a statement; the
statement is run by a connection, in whatever monad that lives in; and the rows that come back are
assembled.

## Contents
- **Connections.** `Request`, `Rows`, `Connection`.
- **Compiling.** `Context`, `Query`, `Compiled`, `Query.compile`, `Compiled.request`.
- **Running.** `Query.rows`, `Query.execute`, `Query.executeAs`, `Query.stream`.
-/

namespace Orm

open Sql

/-! ## Connections -/

/-- A statement for a connection, with a hint how many rows to fetch at a time. -/
structure Request where
  statement : Statement
  fetchSize : Option Nat

/-- The rows of a result, each of which may be a failure to deliver it. -/
abbrev Rows := List (Except Error Row)

/-- What runs statements. -/
abbrev Connection (m : Type → Type) := Request → m (Except Error Rows)

/-! ## Compiling -/

/-- What queries have in common. -/
structure Context where
  schema : Schema
  config : Config := {}

/-- A type and what is wanted of it. -/
structure Query where
  context : Context
  type : String
  clauses : Clauses := {}

/-- A query with its plan and its statement. -/
structure Compiled where
  context : Context
  plan : Plan
  statement : Statement

/-- The plan and the statement of a query. -/
def Query.compile (q : Query) : Except Error Compiled := do
  let plan ← Plan.build q.context.schema q.type
  let statement ← plan.render q.context.config.dialect q.clauses
  return ⟨q.context, plan, statement⟩

/-- What a connection is asked for. -/
def Compiled.request (c : Compiled) : Request :=
  ⟨c.statement, c.context.config.fetchSize⟩

/-! ## Running -/

variable {m : Type → Type} [Monad m]

/-- The compiled query and the rows of its result; a query that cannot be compiled is not run. -/
def Query.rows (q : Query) (connection : Connection m) : ExceptT Error m (Compiled × Rows) := do
  let compiled ← ExceptT.mk (pure q.compile)
  let rows ← ExceptT.mk (connection compiled.request)
  return (compiled, rows)

/-- The objects of a query. -/
def Query.execute (q : Query) (connection : Connection m) : ExceptT Error m Graph := do
  let (compiled, rows) ← q.rows connection
  ExceptT.mk (pure (compiled.plan.materialize q.context.schema rows))

/-- The roots of a query as a caller wants to see them. -/
def Query.executeAs {α : Type} (q : Query) (view : Json → Option α) (connection : Connection m) :
    ExceptT Error m (List α) := do
  let graph ← q.execute connection
  ExceptT.mk (pure (graph.rootsAs view))

/-- Hands graphs to a consumer until one is a failure or the consumer fails; the number handed
over. -/
def consume (consumer : Graph → ExceptT Error m Unit) :
    Nat → List (Except Error Graph) → ExceptT Error m Nat
  | count, [] => return count
  | count, item :: rest => do
    let graph ← ExceptT.mk (pure item)
    consumer graph
    consume consumer (count + 1) rest

/-- Hands the graph of each root to a consumer as soon as it is complete; the number of roots. -/
def Query.stream (q : Query) (consumer : Graph → ExceptT Error m Unit)
    (connection : Connection m) : ExceptT Error m Nat := do
  let (compiled, rows) ← q.rows connection
  consume consumer 0 (compiled.plan.stream q.context.schema rows)

end Orm
