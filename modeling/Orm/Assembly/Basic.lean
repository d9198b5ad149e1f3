import Orm.Object.Graph
import Orm.Plan.Basic
import Orm.Row
import Orm.Value.Key

/-!
# `Orm.Assembly.Basic` — objects assembled from rows

Rows are taken one at a time. In each row the entities of a plan are met from the root down. An
entity whose key is NULL throughout is not in the row, nor is anything below it. Otherwise the key
names one instance: it is made the first time, of the type that the row tells, with its single
values, its value objects and empty collections; and it is linked to its parent once. Last, the
collections of fixed size are settled.

## Contents
- **Reading a row.** `keyOf?`, `levelType`, `discriminatedType`, `typeOf`.
- **Assemblies.** `Instance`, `Link`, `Assembly`, `find?`, `add`, `modify`.
- **Making instances.** `readColumns`, `emptyLists`, `populateEmbedded`, `populate`, `create`, `meet`.
- **Linking.** `Part`, `Owner`, `attach`, `connect`, `link`.
- **Rows.** `Assembly.addRow`, `Assembly.addRows`, `Assembly.finish`, `Plan.materialize`.
-/

namespace Orm

open Schema Plan

/-! ## Reading a row -/

namespace Plan

/-- The identity of an entity in a row: its key, or everything it reads if it has no key. -/
def keyOf? (e : EntityHead) (members : Members) (row : Row) : Option Key :=
  let labels := if e.keyLabels.isEmpty then members.allLabels else e.keyLabels
  Key.ofValues? (labels.map row.getOrNull)

/-- Whether a level is there in a row. -/
def LevelPlan.isPresent (l : LevelPlan) (row : Row) : Bool :=
  l.keyLabels.any fun label => !(row.getOrNull label).isNull

/-- The later of two levels unless the first lies deeper. -/
def deeper (a b : LevelPlan) : LevelPlan :=
  if b.owner.ancestors.length < a.owner.ancestors.length then a else b

/-- The last of the deepest levels. -/
def deepest? : List LevelPlan → Option LevelPlan
  | [] => none
  | l :: rest => some (rest.foldl deeper l)

/-- The type told by the levels that are there: the deepest subclass, or the declared type. -/
def levelType (e : EntityHead) (row : Row) : TypeModel :=
  match deepest? (e.levels.filter fun l => l.role == .subclass && l.isPresent row) with
  | some l => l.owner
  | none => e.declared

/-- The name that a discriminator column holds; anything but a text is taken in its JSON form. -/
def storedName? (value : Value) : Option String :=
  match value with
  | .null => none
  | .text s => some s
  | other => some other.toJson.print

/-- The type told by the discriminator column, or the declared type for an unknown name. -/
def discriminatedType (d : DiscriminatorPlan) (row : Row) : TypeModel :=
  ((storedName? (row.getOrNull d.label)).bind fun name =>
    d.candidates.find? (·.registeredName == name)).getD d.fallback

/-- The type of an entity's instance in a row. -/
def typeOf (e : EntityHead) (row : Row) : TypeModel :=
  match e.strategy with
  | .single => e.declared
  | .vertical => levelType e row
  | .discriminated =>
    match e.discriminator with
    | some d => discriminatedType d row
    | none => e.declared

end Plan

/-! ## Assemblies -/

/-- An object with what it was made from. -/
structure Instance where
  /-- The position of the entity in the plan. -/
  entity : Nat
  key : Key
  type : TypeModel
  object : Object
  /-- The chains of fields that lead to collections of fixed size. -/
  arrays : List (List String)

/-- A child that has been linked to a parent. -/
structure Link where
  parent : ObjectId
  /-- The position of the child's entity in the plan. -/
  entity : Nat
  child : ObjectId
  deriving DecidableEq, Repr

/-- What has been assembled so far; an object's position is that of its instance. -/
structure Assembly where
  instances : List Instance := []
  links : List Link := []

namespace Assembly

/-- The position of the instance of an entity with a key. -/
def find? (a : Assembly) (entity : Nat) (key : Key) : Option ObjectId :=
  a.instances.findIdx? fun i => i.entity == entity && i.key == key

/-- One more instance. -/
def add (a : Assembly) (i : Instance) : Assembly :=
  { a with instances := a.instances ++ [i] }

/-- The assembly with the object at a position changed. -/
def modify (a : Assembly) (id : ObjectId) (change : Object → Object) : Assembly :=
  { a with instances := a.instances.modify id fun i => { i with object := change i.object } }

/-! ## Making instances -/

/-- The value of a field in a row. -/
def readValue (s : Schema) (row : Row) (path : String) (f : FieldModel) (label : String) :
    Except Error Value := do
  let constants ← s.constantsOf f
  match f.coerce constants (row.getOrNull label) with
  | .ok value => return value
  | .error rejection => throw (.unfitValue f.owner f.name path rejection)

/-- Fields with the single values that apply set from a row. -/
def readColumns (s : Schema) (row : Row) (path : String) (applies : FieldModel → Bool) :
    List (FieldModel × String) → Fields → Except Error Fields
  | [], fields => return fields
  | (f, label) :: rest, fields =>
    if applies f then do
      let value ← readValue s row path f label
      readColumns s row path applies rest (fields.set f.name (.leaf (.value value)))
    else readColumns s row path applies rest fields

/-- Fields with the collections that apply set and empty, and the chains to those of fixed size. -/
def emptyLists (applies : FieldModel → Bool) (chain : List String) :
    List (FieldModel × RelationKind × EntityHead × Members) → Fields →
      Fields × List (List String)
  | [], fields => (fields, [])
  | (f, kind, _, _) :: rest, fields =>
    if applies f && kind.isMany then
      let later := emptyLists applies chain rest (fields.set f.name (.leaf (.list [])))
      (later.1, if f.cardinality == .array then (chain ++ [f.name]) :: later.2 else later.2)
    else emptyLists applies chain rest fields

/-- Whether a value object has a value that is not NULL or a value object in it. -/
def hasData : Fields → Bool
  | .nil => false
  | .leaf _ (.value v) rest => !v.isNull || hasData rest
  | .leaf _ _ rest => hasData rest
  | .embedded .. => true

/-- Fields with the value objects that apply set from a row, and the chains to collections of fixed
size in them. A value object without data is left out. -/
def populateEmbedded (s : Schema) (row : Row) (path : String) :
    Members → (FieldModel → Bool) → List String → Fields →
      Except Error (Fields × List (List String))
  | .nil, _, _, fields => return (fields, [])
  | .column _ _ rest, applies, chain, fields =>
    populateEmbedded s row path rest applies chain fields
  | .relation _ _ _ _ rest, applies, chain, fields =>
    populateEmbedded s row path rest applies chain fields
  | .embedded f target inner rest, applies, chain, fields =>
    if applies f then do
      let below := chain ++ [f.name]
      let values ← readColumns s row path (fun _ => true) inner.columns .nil
      let deep ← populateEmbedded s row path inner (fun _ => true) below values
      let whole := emptyLists (fun _ => true) below inner.relations deep.1
      let fields := if hasData whole.1
        then fields.set f.name (.embedded ⟨target.name, path, whole.1⟩) else fields
      let later ← populateEmbedded s row path rest applies chain fields
      return (later.1, deep.2 ++ whole.2 ++ later.2)
    else populateEmbedded s row path rest applies chain fields

/-- The fields of a new object of a type: single values, value objects, then collections. -/
def populate (s : Schema) (row : Row) (path : String) (type : TypeModel) (members : Members) :
    Except Error (Fields × List (List String)) := do
  let applies (f : FieldModel) : Bool := type.isA f.owner
  let values ← readColumns s row path applies members.columns .nil
  let deep ← populateEmbedded s row path members applies [] values
  let whole := emptyLists applies [] members.relations deep.1
  return (whole.1, deep.2 ++ whole.2)

/-- A new instance of an entity from a row. -/
def create (s : Schema) (row : Row) (e : EntityHead) (members : Members) (key : Key) :
    Except Error Instance := do
  let type := typeOf e row
  let (fields, arrays) ← populate s row e.path type members
  return ⟨e.index, key, type, ⟨type.name, e.path, fields⟩, arrays⟩

/-- The instance of an entity in a row, made if it is new; none if the entity is not in the row. -/
def meet (s : Schema) (row : Row) (e : EntityHead) (members : Members) (a : Assembly) :
    Except Error (Option (ObjectId × TypeModel) × Assembly) :=
  match keyOf? e members row with
  | none => return (none, a)
  | some key =>
    match a.find? e.index key with
    | some id => return ((a.instances[id]?).map fun i => (id, i.type), a)
    | none => do
      let i ← create s row e members key
      return (some (a.instances.length, i.type), a.add i)

/-! ## Linking -/

/-- The two parts of linking an object: its relations, and then those in its value objects. -/
inductive Part where
  | relations
  | embedded
  deriving DecidableEq, Repr

/-- The object that relations belong to, and the chain of value objects they lie in. -/
structure Owner where
  id : ObjectId
  type : TypeModel
  /-- The fields that lead to the value object, with the types of their objects. -/
  chain : List (String × String)

/-- Whether a field belongs to the owner: its type must declare or inherit it. The fields of a value
object all belong to it. -/
def Owner.applies (o : Owner) (f : FieldModel) : Bool :=
  !o.chain.isEmpty || o.type.isA f.owner

/-- The owner of the relations in a value object. -/
def Owner.inside (o : Owner) (field typeName : String) : Owner :=
  { o with chain := o.chain ++ [(field, typeName)] }

/-- Fields with a child attached to one: a collection grows, a single reference is set once. -/
def attach (name : String) (kind : RelationKind) (child : ObjectId) (fields : Fields) : Fields :=
  match kind with
  | .toOne => if (fields.get? name).isSome then fields else fields.set name (.leaf (.ref child))
  | _ =>
    match fields.get? name with
    | some (.leaf (.list ids)) => fields.set name (.leaf (.list (ids ++ [child])))
    | _ => fields.set name (.leaf (.list [child]))

/-- A child linked to its owner, unless it has been. -/
def connect (a : Assembly) (o : Owner) (f : FieldModel) (kind : RelationKind) (entity : Nat)
    (child : ObjectId) : Assembly :=
  let l : Link := ⟨o.id, entity, child⟩
  if a.links.contains l then a
  else { a with links := a.links ++ [l] }.modify o.id (·.updateAt (attach f.name kind child) o.chain)

/-- The entities that an owner's relations lead to in a row, met and linked, each with all below
it. -/
def link (s : Schema) (row : Row) : Members → Part → Owner → Assembly → Except Error Assembly
  | .nil, _, _, a => return a
  | .column _ _ rest, part, o, a => link s row rest part o a
  | .embedded f target inner rest, part, o, a =>
    match part with
    | .relations => link s row rest .relations o a
    | .embedded =>
      if o.applies f then do
        let inside := o.inside f.name target.name
        let a ← link s row inner .relations inside a
        let a ← link s row inner .embedded inside a
        link s row rest .embedded o a
      else link s row rest .embedded o a
  | .relation f kind child inner rest, part, o, a =>
    match part with
    | .embedded => link s row rest .embedded o a
    | .relations =>
      if o.applies f then do
        let (met, a) ← meet s row child inner a
        match met with
        | none => link s row rest .relations o a
        | some (id, type) => do
          let a ← link s row inner .relations ⟨id, type, []⟩ a
          let a ← link s row inner .embedded ⟨id, type, []⟩ a
          link s row rest .relations o (a.connect o f kind child.index id)
      else link s row rest .relations o a

/-! ## Rows -/

/-- One more row about an entity. -/
def addRow (s : Schema) (root : Entity) (a : Assembly) (row : Row) : Except Error Assembly := do
  let (met, a) ← meet s row root.head root.members a
  match met with
  | none => return a
  | some (id, type) =>
    let a ← link s row root.members .relations ⟨id, type, []⟩ a
    link s row root.members .embedded ⟨id, type, []⟩ a

/-- More rows, up to the first that is a failure or does not fit. -/
def addRows (s : Schema) (root : Entity) : Assembly → List (Except Error Row) → Except Error Assembly
  | a, [] => return a
  | a, row :: rest => do
    let row ← row
    let a ← a.addRow s root row
    addRows s root a rest

/-- The object of an instance with its collections of fixed size settled. -/
def settled (i : Instance) : Object :=
  i.arrays.foldl (fun o chain => o.settle chain) i.object

/-- The graph of the objects; the instances of the first entity are the roots. -/
def finish (a : Assembly) : Graph where
  objects := a.instances.map settled
  rootIds := a.instances.zipIdx.filterMap fun p => if p.1.entity = 0 then some p.2 else none

end Assembly

/-- The graph of all rows of a plan. Of the rows of an empty plan only failures matter. -/
def Plan.materialize (p : Plan) (s : Schema) (rows : List (Except Error Row)) :
    Except Error Graph :=
  match p.root with
  | none => do
    let _ ← rows.mapM id
    return ⟨[], []⟩
  | some root => Assembly.finish <$> Assembly.addRows s root {} rows

end Orm
