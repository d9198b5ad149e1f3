import Orm.Value.Rendering

/-!
# `Orm.Object.Basic` — objects and graphs of objects

Objects lie in an arena and refer to each other by their position in it, so one object can be reached
from many. A value object lies inside its owner. The fields of an object are kept in the order in
which they were first set.

The fields are one inductive type: a node is one field followed by the rest, and a value object's
node carries the fields of the value object.

## Contents
- **Fields.** `Leaf`, `Fields`, `Fields.set`, `Fields.get?`.
- **Objects.** `Slot`, `Object`, `Object.get?`, `set`, `value?`, `embedded?`, `overwrite?`.
- **Deep fields.** `Object.updateAt` makes value objects on its way, `Object.settle` turns a list
  into an array.
-/

namespace Orm

/-! ## Fields -/

/-- A position in an arena. -/
abbrev ObjectId := Nat

/-- The content of a field that is not a value object. -/
inductive Leaf where
  | value (value : Value)
  /-- The object of a to-one relation. -/
  | ref (id : ObjectId)
  /-- The objects of a to-many relation, in the order of their first appearance. -/
  | list (ids : List ObjectId)
  /-- The same for a relation whose size is settled. -/
  | array (ids : List ObjectId)

/-- Fields in the order in which they were set. -/
inductive Fields where
  | nil
  | leaf (name : String) (content : Leaf) (rest : Fields)
  /-- A value object: its type, the path it was read under, and its fields. -/
  | embedded (name typeName path : String) (inner rest : Fields)

/-! ## Objects -/

/-- An object or a value object. -/
structure Object where
  typeName : String
  path : String
  fields : Fields

/-- The content of a field. -/
inductive Slot where
  | leaf (content : Leaf)
  | embedded (object : Object)

namespace Fields

/-- One field in front of others. -/
def cons (name : String) (slot : Slot) (rest : Fields) : Fields :=
  match slot with
  | .leaf content => .leaf name content rest
  | .embedded o => .embedded name o.typeName o.path o.fields rest

/-- The content of a field. -/
def get? (name : String) : Fields → Option Slot
  | .nil => none
  | .leaf other content rest => if other = name then some (.leaf content) else rest.get? name
  | .embedded other t p inner rest =>
    if other = name then some (.embedded ⟨t, p, inner⟩) else rest.get? name

/-- The fields with one set: in its place if it is there, at the end if not. -/
def set (name : String) (slot : Slot) : Fields → Fields
  | .nil => cons name slot .nil
  | .leaf other content rest =>
    if other = name then cons name slot rest else .leaf other content (rest.set name slot)
  | .embedded other t p inner rest =>
    if other = name then cons name slot rest else .embedded other t p inner (rest.set name slot)

/-- The names with their contents, in order. -/
def toList : Fields → List (String × Slot)
  | .nil => []
  | .leaf name content rest => (name, .leaf content) :: rest.toList
  | .embedded name t p inner rest => (name, .embedded ⟨t, p, inner⟩) :: rest.toList

/-- Looking up what was put in front. -/
theorem get?_cons (name other : String) (slot : Slot) (rest : Fields) :
    (cons other slot rest).get? name = if other = name then some slot else rest.get? name := by
  cases slot <;> rfl

/-- A field that was set holds what it was set to; all others hold what they held. -/
theorem get?_set (name other : String) (slot : Slot) (fields : Fields) :
    (fields.set other slot).get? name = if other = name then some slot else fields.get? name := by
  induction fields with
  | nil => simp [set, get?_cons, get?]
  | leaf n content rest ih =>
    by_cases h : n = other
    · subst h
      by_cases h' : n = name <;> simp [set, get?_cons, get?, h']
    · by_cases h' : n = name
      · subst h'
        simp [set, get?, h, Ne.symm h]
      · simp [set, get?, h, h', ih]
  | embedded n t p inner rest _ ih =>
    by_cases h : n = other
    · subst h
      by_cases h' : n = name <;> simp [set, get?_cons, get?, h']
    · by_cases h' : n = name
      · subst h'
        simp [set, get?, h, Ne.symm h]
      · simp [set, get?, h, h', ih]

end Fields

namespace Object

/-- An object without fields. -/
def empty (typeName path : String) : Object := ⟨typeName, path, .nil⟩

/-- The content of a field. -/
def get? (o : Object) (name : String) : Option Slot :=
  o.fields.get? name

/-- The object with a field set. -/
def set (o : Object) (name : String) (slot : Slot) : Object :=
  { o with fields := o.fields.set name slot }

/-- The value of a field that holds one. -/
def value? (o : Object) (name : String) : Option Value :=
  match o.get? name with
  | some (.leaf (.value v)) => some v
  | _ => none

/-- The value object of a field that holds one. -/
def embedded? (o : Object) (name : String) : Option Object :=
  match o.get? name with
  | some (.embedded inner) => some inner
  | _ => none

/-- The object with the content of a field replaced, if the field is there. -/
def overwrite? (o : Object) (name : String) (slot : Slot) : Option Object :=
  (o.get? name).map fun _ => o.set name slot

end Object

/-! ## Deep fields -/

/-- The fields of an object changed below a chain of value objects, given by field and type. A value
object that is missing on the way is made, under the path of the object. -/
def Object.updateAt (change : Fields → Fields) : List (String × String) → Object → Object
  | [], o => { o with fields := change o.fields }
  | (field, typeName) :: chain, o =>
    let inner := (o.embedded? field).getD (.empty typeName o.path)
    o.set field (.embedded (inner.updateAt change chain))

/-- A list that is settled; all else stays. -/
def Slot.settled : Slot → Slot
  | .leaf (.list ids) => .leaf (.array ids)
  | slot => slot

/-- The object with the list at the end of a chain of fields settled; all fields but the last must
hold value objects. -/
def Object.settle : List String → Object → Object
  | [], o => o
  | [last], o =>
    match o.get? last with
    | some slot => o.set last slot.settled
    | none => o
  | field :: next :: chain, o =>
    match o.embedded? field with
    | some inner => o.set field (.embedded (inner.settle (next :: chain)))
    | none => o

end Orm
