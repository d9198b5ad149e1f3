import Orm.Assembly.Basic

/-!
# `Orm.Assembly.Stream` — one graph per root

Rows that are grouped by the key of the root are handed out root by root: a graph is finished as soon
as a row with another key is read, or the rows end. Rows without a root key are passed over. After a
failure nothing more is handed out.

## Contents
- **Streams.** `RootStream`, `RootStream.start`, `RootStream.ended`.
- **Stepping.** `RootStream.advance`, `RootStream.next`.
- **All of it.** `RootStream.take`, `Plan.stream`.
-/

namespace Orm

open Plan

/-! ## Streams -/

/-- The rows still to be read, and what has been assembled of the root whose key is `current`. -/
structure RootStream where
  current : Option Key
  assembly : Assembly
  rows : List (Except Error Row)
  done : Bool

namespace RootStream

/-- A stream before its first row. -/
def start (rows : List (Except Error Row)) : RootStream := ⟨none, {}, rows, false⟩

/-- A stream that hands out nothing more. -/
def ended : RootStream := ⟨none, {}, [], true⟩

/-! ## Stepping -/

/-- Reads rows until a graph is finished or a failure is met: what is handed out, and the stream
after it. -/
def advance (s : Schema) (root : Entity) (current : Option Key) (assembly : Assembly) :
    List (Except Error Row) → Option (Except Error Graph) × RootStream
  | [] => (current.map fun _ => .ok assembly.finish, ended)
  | .error e :: _ => (some (.error e), ended)
  | .ok row :: rest =>
    match keyOf? root.head root.members row with
    | none => advance s root current assembly rest
    | some key =>
      let closed := current.any (· != key)
      match (if closed then {} else assembly).addRow s root row with
      | .error e => (some (.error e), ended)
      | .ok grown =>
        if closed then (some (.ok assembly.finish), ⟨some key, grown, rest, false⟩)
        else advance s root (some key) grown rest

/-- What a stream hands out next. -/
def next (s : Schema) (root : Entity) (stream : RootStream) :
    Option (Except Error Graph) × RootStream :=
  if stream.done then (none, stream)
  else advance s root stream.current stream.assembly stream.rows

/-! ## All of it -/

/-- Up to `count` things that a stream hands out. -/
def take (s : Schema) (root : Entity) : Nat → RootStream → List (Except Error Graph)
  | 0, _ => []
  | count + 1, stream =>
    match stream.next s root with
    | (none, _) => []
    | (some item, later) => item :: take s root count later

end RootStream

/-- Everything that the stream of a plan hands out. A row finishes at most one graph, and the end of
the rows one more. -/
def Plan.stream (p : Plan) (s : Schema) (rows : List (Except Error Row)) :
    List (Except Error Graph) :=
  match p.root with
  | none => []
  | some root => (RootStream.start rows).take s root (rows.length + 1)

end Orm
