import Orm.Assembly.Basic

/-!
# `Proofs.Object.Shift` — objects that are moved in their arena

Objects refer to each other by position. When an arena is put behind another one, every object of it
moves, and so does everything that refers to it. What is done to the fields of an object can be done
before the move or after it.

## Contents
- **Moving.** `Leaf.shift`, `Fields.shift`, `Slot.shift`, `Object.shift`.
- **Fields after a move.** `Fields.get?_shift`, `Fields.shift_set`, `Object.embedded?_shift`.
- **Steps after a move.** `shift_attach`, `Object.shift_updateAt`, `Object.shift_settle`.
- **Fields without references.** `Fields.shift_eq_self`.
- **JSON.** `Fields.members_shift`.
-/

namespace Orm

open Plan

/-! ## Moving -/

/-- The content of a field after all objects have moved up. -/
def Leaf.shift (k : Nat) : Leaf → Leaf
  | .value v => .value v
  | .ref id => .ref (k + id)
  | .list ids => .list (ids.map (k + ·))
  | .array ids => .array (ids.map (k + ·))

/-- Fields after all objects have moved up. -/
def Fields.shift (k : Nat) : Fields → Fields
  | .nil => .nil
  | .leaf name content rest => .leaf name (content.shift k) (rest.shift k)
  | .embedded name typeName path inner rest =>
    .embedded name typeName path (inner.shift k) (rest.shift k)

/-- An object after all objects have moved up. -/
def Object.shift (k : Nat) (o : Object) : Object :=
  { o with fields := o.fields.shift k }

/-- The content of any field after all objects have moved up. -/
def Slot.shift (k : Nat) : Slot → Slot
  | .leaf content => .leaf (content.shift k)
  | .embedded o => .embedded (o.shift k)

section

variable {k : Nat} {name : String} {fields : Fields} {o : Object} {kind : RelationKind}
  {child : ObjectId}

/-! ## Fields after a move -/

namespace Fields

theorem shift_cons (name : String) (slot : Slot) (rest : Fields) :
    (cons name slot rest).shift k = cons name (slot.shift k) (rest.shift k) := by
  cases slot <;> rfl

/-- A field holds what it held, moved. -/
theorem get?_shift (k : Nat) (name : String) (fields : Fields) :
    (fields.shift k).get? name = (fields.get? name).map (Slot.shift k) := by
  induction fields with
  | nil => rfl
  | leaf other content rest ih =>
    rw [shift, get?, get?, ih]
    split <;> rfl
  | embedded other typeName path inner rest _ ih =>
    rw [shift, get?, get?, ih]
    split <;> rfl

/-- Setting a field and moving can be done in either order. -/
theorem shift_set (k : Nat) (name : String) (slot : Slot) (fields : Fields) :
    (fields.set name slot).shift k = (fields.shift k).set name (slot.shift k) := by
  induction fields with
  | nil => exact shift_cons name slot .nil
  | leaf other content rest ih =>
    rw [shift, set, set]
    by_cases here : other = name
    · rw [if_pos here, if_pos here, shift_cons]
    · rw [if_neg here, if_neg here, shift, ih]
  | embedded other typeName path inner rest _ ih =>
    rw [shift, set, set]
    by_cases here : other = name
    · rw [if_pos here, if_pos here, shift_cons]
    · rw [if_neg here, if_neg here, shift, ih]

end Fields

namespace Object

theorem get?_shift (k : Nat) (name : String) (o : Object) :
    (o.shift k).get? name = (o.get? name).map (Slot.shift k) :=
  Fields.get?_shift k name o.fields

theorem shift_set (k : Nat) (name : String) (slot : Slot) (o : Object) :
    (o.set name slot).shift k = (o.shift k).set name (slot.shift k) :=
  congrArg (Object.mk o.typeName o.path) (Fields.shift_set k name slot o.fields)

theorem embedded?_shift (k : Nat) (name : String) (o : Object) :
    (o.shift k).embedded? name = (o.embedded? name).map (Object.shift k) := by
  unfold embedded?
  rw [get?_shift]
  cases o.get? name with
  | none => rfl
  | some slot => cases slot <;> rfl

end Object

/-! ## Steps after a move -/

/-- Attaching a child and moving can be done in either order. -/
theorem shift_attach (k : Nat) (name : String) (kind : RelationKind) (child : ObjectId)
    (fields : Fields) :
    (Assembly.attach name kind child fields).shift k =
      Assembly.attach name kind (k + child) (fields.shift k) := by
  unfold Assembly.attach
  rw [Fields.get?_shift]
  by_cases one : kind = .toOne
  · subst one
    dsimp only
    rw [Option.isSome_map]
    split
    · rfl
    · exact Fields.shift_set k name _ fields
  · -- a collection grows or begins, whatever kind of collection it is
    cases kind
    case toOne => exact absurd rfl one
    all_goals
      dsimp only
      rcases fields.get? name with _ | (_ | _ | ids | _) | _
    all_goals
      refine (Fields.shift_set k name _ fields).trans ?_
      simp [Slot.shift, Leaf.shift]

namespace Object

/-- A change at the end of a chain of value objects, and moving, can be done in either order. -/
theorem shift_updateAt {change moved : Fields → Fields}
    (same : ∀ fields, (change fields).shift k = moved (fields.shift k))
    (chain : List (String × String)) (o : Object) :
    (o.updateAt change chain).shift k = (o.shift k).updateAt moved chain := by
  induction chain generalizing o with
  | nil => exact congrArg (Object.mk o.typeName o.path) (same o.fields)
  | cons step chain ih =>
    obtain ⟨field, typeName⟩ := step
    rw [updateAt, updateAt, shift_set, embedded?_shift]
    show (o.shift k).set field (.embedded (_ : Object)) = (o.shift k).set field (.embedded _)
    rw [ih]
    -- a value object that is made on the way refers to nothing
    cases o.embedded? field <;> rfl

theorem settled_shift (k : Nat) (slot : Slot) : (slot.shift k).settled = slot.settled.shift k := by
  rcases slot with (_ | _ | _ | _) | _ <;> rfl

/-- Settling a collection and moving can be done in either order. -/
theorem shift_settle (k : Nat) (chain : List String) (o : Object) :
    (o.settle chain).shift k = (o.shift k).settle chain := by
  induction chain, o using Object.settle.induct with
  | case1 o => rfl
  | case2 o last slot found =>
    simp only [settle, found, get?_shift, Option.map_some, shift_set, settled_shift]
  | case3 o last none => simp only [settle, none, get?_shift, Option.map_none]
  | case4 o field next chain inner found ih =>
    simp only [settle, found, embedded?_shift, Option.map_some, shift_set, Slot.shift, ih]
  | case5 o field next chain none => simp only [settle, none, embedded?_shift, Option.map_none]

end Object

/-! ## Fields without references -/

/-- Fields that refer to nothing stay as they are when objects move. -/
theorem Fields.shift_eq_self (none : fields.targets = []) (k : Nat) : fields.shift k = fields := by
  induction fields with
  | nil => rfl
  | leaf name content rest ih =>
    obtain ⟨here, later⟩ := List.append_eq_nil_iff.mp none
    rw [shift, ih later]
    cases content with
    | value v => rfl
    | ref id => cases here
    | list ids =>
      obtain rfl : ids = [] := here
      rfl
    | array ids =>
      obtain rfl : ids = [] := here
      rfl
  | embedded name typeName path inner rest inner_ih ih =>
    obtain ⟨here, later⟩ := List.append_eq_nil_iff.mp none
    rw [shift, inner_ih here, ih later]

/-! ## JSON -/

theorem Leaf.toJson_shift (f : ObjectId → Json) (content : Leaf) :
    (content.shift k).toJson f = content.toJson fun id => f (k + id) := by
  cases content with
  | value v => rfl
  | ref id => rfl
  | list ids => exact congrArg Json.array List.map_map
  | array ids => exact congrArg Json.array List.map_map

/-- The JSON of fields that have moved is that of the fields, with the objects found where they are. -/
theorem Fields.members_shift (k : Nat) (f : ObjectId → Json) (fields : Fields) :
    (fields.shift k).members f = fields.members fun id => f (k + id) := by
  induction fields with
  | nil => rfl
  | leaf name content rest ih => rw [shift, members, members, Leaf.toJson_shift, ih]
  | embedded name typeName path inner rest inner_ih ih => rw [shift, members, members, inner_ih, ih]

end

end Orm
