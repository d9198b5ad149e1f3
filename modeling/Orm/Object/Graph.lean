import Orm.Object.Basic
import Orm.Error

/-!
# `Orm.Object.Graph` — the result of a query

A graph is an arena of objects with the positions of its roots.

## Contents
- **Graphs.** `Graph`, `Graph.get?`, `Graph.roots`, `Graph.follow?`, `Graph.children`.
- **Reach.** `Fields.targets`, `Graph.reach`, `Graph.reachable`.
- **JSON.** `Fields.members`, `Graph.objectJson`, `Graph.toJson`.
- **Views.** `Graph.rootsAs`.
-/

namespace Orm

/-! ## Graphs -/

/-- An arena of objects and its roots in the order of their first appearance. -/
structure Graph where
  objects : List Object
  rootIds : List ObjectId

namespace Graph

/-- The object at a position. -/
def get? (g : Graph) (id : ObjectId) : Option Object :=
  g.objects[id]?

/-- The root objects. -/
def roots (g : Graph) : List Object :=
  g.rootIds.filterMap g.get?

/-- The number of roots. -/
def size (g : Graph) : Nat :=
  g.rootIds.length

/-- The number of objects, roots and all others. -/
def objectCount (g : Graph) : Nat :=
  g.objects.length

/-- The object that a to-one field refers to. -/
def follow? (g : Graph) (o : Object) (field : String) : Option Object :=
  match o.get? field with
  | some (.leaf (.ref id)) => g.get? id
  | _ => none

/-- The objects of a to-many field. -/
def children (g : Graph) (o : Object) (field : String) : List Object :=
  match o.get? field with
  | some (.leaf (.list ids)) => ids.filterMap g.get?
  | some (.leaf (.array ids)) => ids.filterMap g.get?
  | _ => []

end Graph

/-! ## Reach -/

/-- The positions that a field refers to. -/
def Leaf.targets : Leaf → List ObjectId
  | .value _ => []
  | .ref id => [id]
  | .list ids | .array ids => ids

/-- The positions that fields refer to, also those of value objects. -/
def Fields.targets : Fields → List ObjectId
  | .nil => []
  | .leaf _ content rest => content.targets ++ rest.targets
  | .embedded _ _ _ inner rest => inner.targets ++ rest.targets

namespace Graph

/-- The positions that the object at a position refers to. -/
def targets (g : Graph) (id : ObjectId) : List ObjectId :=
  ((g.get? id).map (·.fields.targets)).getD []

/-- The positions that are reached in at most `steps` references; each step starts from those that
the step before has added. -/
def reach (g : Graph) : Nat → List ObjectId → List ObjectId → List ObjectId
  | 0, reached, _ => reached
  | steps + 1, reached, added =>
    let next := ((added.flatMap g.targets).filter fun id => !reached.contains id).eraseDups
    if next.isEmpty then reached else g.reach steps (reached ++ next) next

/-- The positions that can be reached from the roots, in order. No object is more references away
than there are objects. -/
def reachable (g : Graph) : List ObjectId :=
  let reached := g.reach g.objectCount g.rootIds g.rootIds
  (List.range g.objectCount).filter reached.contains

end Graph

/-! ## JSON -/

/-- The content of a field as JSON, given the JSON of the objects it refers to. -/
def Leaf.toJson (object : ObjectId → Json) : Leaf → Json
  | .value v => v.toJson
  | .ref id => object id
  | .list ids => .array (ids.map object)
  | .array ids => .array (ids.map object)

/-- Fields as the members of a JSON object, given the JSON of the objects they refer to. -/
def Fields.members (object : ObjectId → Json) : Fields → List (String × Json)
  | .nil => []
  | .leaf name content rest => (name, content.toJson object) :: rest.members object
  | .embedded name _ _ inner rest =>
    (name, Json.ofMembers (inner.members object)) :: rest.members object

namespace Graph

/-- The JSON of an object with all it refers to, down to a depth. -/
def objectJson (g : Graph) : Nat → ObjectId → Json
  | 0, _ => .null
  | depth + 1, id =>
    match g.get? id with
    | some o => Json.ofMembers (o.fields.members (g.objectJson depth))
    | none => .null

/-- The JSON of an object. References do not lead back, so they are never deeper than there are
objects. -/
def json (g : Graph) (id : ObjectId) : Json :=
  g.objectJson (g.objectCount + 1) id

/-- The JSON of the roots. -/
def toJson (g : Graph) : Json :=
  .array (g.rootIds.map g.json)

/-! ## Views -/

/-- A root as a caller wants to see it. -/
def rootAs {α : Type} (g : Graph) (view : Json → Option α) (id : ObjectId) : Except Error α :=
  match view (g.json id) with
  | some a => .ok a
  | none =>
    let o := (g.get? id).getD (.empty "" "")
    .error (.unfitValue o.typeName "" o.path ⟨"view", "materialized object", "mismatch"⟩)

/-- The roots as a caller wants to see them; the first that cannot be seen so is the failure. -/
def rootsAs {α : Type} (g : Graph) (view : Json → Option α) : Except Error (List α) :=
  g.rootIds.mapM (g.rootAs view)

end Graph

end Orm
