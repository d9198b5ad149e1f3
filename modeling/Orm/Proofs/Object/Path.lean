import Orm.Assembly.Basic

/-!
# `Proofs.Object.Path` — fields that lie in value objects

A relation may lie in a value object, and that in another, so a collection of an object is found along
a path of names. Attaching a child changes what lies at the path of its relation and nothing at a path
apart from it, also where value objects are made on the way. Settling a collection keeps its contents.

## Contents
- **Paths.** `Object.at?`, `Apart`.
- **Changes.** `at?_updateAt`, `at?_updateAt_of_apart`, `at?_settle`.
- **References.** `Holds`, `Holds.attached`, `Shows`, `Shows.settle`.
-/

namespace Orm

/-! ## Paths -/

/-- The content of the field at the end of a path; all fields before it must hold value objects. -/
def Object.at? : List String → Object → Option Slot
  | [], _ => none
  | [last], o => o.get? last
  | field :: next :: rest, o => (o.embedded? field).bind (Object.at? (next :: rest))

/-- Neither of two paths leads through the other. -/
def Apart (p q : List String) : Prop :=
  ¬ p <+: q ∧ ¬ q <+: p

/-- Paths that begin alike are apart further on. -/
theorem Apart.tail {field : String} {p q : List String} (h : Apart (field :: p) (field :: q)) :
    Apart p q :=
  ⟨fun sub => h.1 (List.cons_prefix_cons.mpr ⟨rfl, sub⟩),
    fun sub => h.2 (List.cons_prefix_cons.mpr ⟨rfl, sub⟩)⟩

namespace Object

variable {o : Object}

theorem at?_cons (field : String) {rest : List String} (more : rest ≠ []) :
    o.at? (field :: rest) = (o.embedded? field).bind (Object.at? rest) := by
  cases rest with
  | nil => exact absurd rfl more
  | cons next rest => rfl

theorem at?_empty (typeName path : String) (p : List String) : (empty typeName path).at? p = none := by
  match p with
  | [] => rfl
  | [_] => rfl
  | _ :: _ :: _ => rfl

theorem get?_set (name other : String) (slot : Slot) :
    (o.set other slot).get? name = if other = name then some slot else o.get? name :=
  Fields.get?_set name other slot o.fields

theorem embedded?_set (name other : String) (inner : Object) :
    (o.set other (.embedded inner)).embedded? name =
      if other = name then some inner else o.embedded? name := by
  unfold embedded?
  rw [get?_set]
  by_cases same : other = name
  · rw [if_pos same, if_pos same]
  · rw [if_neg same, if_neg same]

theorem get?_of_embedded? {name : String} {inner : Object} (h : o.embedded? name = some inner) :
    o.get? name = some (.embedded inner) := by
  unfold embedded? at h
  split at h
  next found =>
    cases h
    exact found
  next => cases h

/-- What lies at a path depends on the content of its first field only. -/
theorem at?_congr {o' : Object} {field : String} (same : o'.get? field = o.get? field)
    (rest : List String) : o'.at? (field :: rest) = o.at? (field :: rest) := by
  cases rest with
  | nil => exact same
  | cons next rest =>
    rw [at?_cons field (List.cons_ne_nil next rest), at?_cons field (List.cons_ne_nil next rest)]
    unfold embedded?
    rw [same]

/-! ## Changes -/

@[simp]
theorem typeName_updateAt (change : Fields → Fields) (chain : List (String × String)) (o : Object) :
    (o.updateAt change chain).typeName = o.typeName := by
  cases chain <;> rfl

@[simp]
theorem path_updateAt (change : Fields → Fields) (chain : List (String × String)) (o : Object) :
    (o.updateAt change chain).path = o.path := by
  cases chain <;> rfl

/-- A change of a field below a chain of value objects is made at its path. -/
theorem at?_updateAt {change : Fields → Fields} {name : String} {effect : Option Slot → Option Slot}
    (changes : ∀ fields, (change fields).get? name = effect (fields.get? name))
    (chain : List (String × String)) (o : Object) :
    (o.updateAt change chain).at? (chain.map (·.1) ++ [name]) =
      effect (o.at? (chain.map (·.1) ++ [name])) := by
  induction chain generalizing o with
  | nil => exact changes o.fields
  | cons step rest ih =>
    have more : rest.map (·.1) ++ [name] ≠ [] := List.append_ne_nil_of_right_ne_nil _ (by simp)
    show (o.set step.1 (.embedded _)).at? (step.1 :: (rest.map (·.1) ++ [name])) =
      effect (o.at? (step.1 :: (rest.map (·.1) ++ [name])))
    rw [at?_cons _ more, at?_cons _ more, embedded?_set, if_pos rfl]
    show Object.at? _ (Object.updateAt change rest _) = _
    rw [ih]
    cases o.embedded? step.1 with
    | none => exact congrArg effect (at?_empty _ _ _)
    | some inner => rfl

/-- A change of a field below a chain of value objects leaves what lies at a path apart from it. -/
theorem at?_updateAt_of_apart {change : Fields → Fields} {name : String}
    (keeps : ∀ fields other, other ≠ name → (change fields).get? other = fields.get? other)
    {chain : List (String × String)} {q : List String} (apart : Apart (chain.map (·.1) ++ [name]) q)
    (o : Object) : (o.updateAt change chain).at? q = o.at? q := by
  induction chain generalizing o q with
  | nil =>
    cases q with
    | nil => rfl
    | cons field rest =>
      have other : field ≠ name := by
        rintro rfl
        exact apart.1 (List.cons_prefix_cons.mpr ⟨rfl, List.nil_prefix⟩)
      have same : (Object.updateAt change [] o).get? field = o.get? field := keeps o.fields field other
      exact at?_congr same rest
  | cons step rest ih =>
    cases q with
    | nil => rfl
    | cons field more =>
      show (o.set step.1 (.embedded _)).at? (field :: more) = _
      by_cases same : step.1 = field
      · subst same
        have tails := apart.tail
        have deeper : more ≠ [] := by
          rintro rfl
          exact tails.2 List.nil_prefix
        rw [at?_cons _ deeper, at?_cons _ deeper, embedded?_set, if_pos rfl]
        show Object.at? more (Object.updateAt change rest _) = _
        rw [ih tails]
        cases o.embedded? step.1 with
        | none => exact at?_empty _ _ _
        | some inner => rfl
      · refine at?_congr ?_ more
        rw [get?_set, if_neg same]

@[simp]
theorem typeName_settle (chain : List String) (o : Object) : (o.settle chain).typeName = o.typeName := by
  unfold settle
  split
  · rfl
  · split <;> rfl
  · split <;> rfl

@[simp]
theorem path_settle (chain : List String) (o : Object) : (o.settle chain).path = o.path := by
  unfold settle
  split
  · rfl
  · split <;> rfl
  · split <;> rfl

/-- A settled slot holds a value object just if the slot does. -/
theorem embedded?_set_settled {field : String} {slot : Slot} (found : o.get? field = some slot) :
    (o.set field slot.settled).embedded? field = o.embedded? field := by
  unfold embedded?
  rw [get?_set, if_pos rfl, found]
  cases slot with
  | leaf content => cases content <;> rfl
  | embedded inner => rfl

/-- Settling a list settles at most what lies at a path, unless that is a value object. -/
theorem at?_settle (chain q : List String) (o : Object) :
    (o.settle chain).at? q = o.at? q ∨ (o.settle chain).at? q = (o.at? q).map Slot.settled ∨
      ∃ inner, o.at? q = some (.embedded inner) := by
  induction chain generalizing o q with
  | nil => exact .inl rfl
  | cons field rest ih =>
    cases q with
    | nil => exact .inl rfl
    | cons first more =>
      cases rest with
      | nil =>
        unfold settle
        cases found : o.get? field with
        | none => exact .inl rfl
        | some slot =>
          show (o.set field slot.settled).at? (first :: more) = _ ∨ _
          by_cases same : field = first
          · subst same
            cases more with
            | nil =>
              refine .inr (.inl ?_)
              show (o.set field slot.settled).get? field = (o.get? field).map Slot.settled
              rw [get?_set, if_pos rfl, found]
              rfl
            | cons next deeper =>
              refine .inl ?_
              rw [at?_cons _ (List.cons_ne_nil _ _), at?_cons _ (List.cons_ne_nil _ _),
                embedded?_set_settled found]
          · exact .inl (at?_congr (by rw [get?_set, if_neg same]) more)
      | cons next chain =>
        unfold settle
        cases found : o.embedded? field with
        | none => exact .inl rfl
        | some inner =>
          show (o.set field (.embedded _)).at? (first :: more) = _ ∨ _
          by_cases same : field = first
          · subst same
            cases more with
            | nil => exact .inr (.inr ⟨inner, get?_of_embedded? found⟩)
            | cons next' deeper =>
              rw [at?_cons _ (List.cons_ne_nil _ _), at?_cons _ (List.cons_ne_nil _ _),
                embedded?_set, if_pos rfl, found]
              exact ih (next' :: deeper) inner
          · exact .inl (at?_congr (by rw [get?_set, if_neg same]) more)

end Object

/-! ## References -/

open Plan

namespace Assembly

/-- What attaching a child does to the content of its relation. -/
def attached (kind : RelationKind) (child : ObjectId) (slot : Option Slot) : Option Slot :=
  match kind with
  | .toOne => if slot.isSome then slot else some (.leaf (.ref child))
  | _ =>
    match slot with
    | some (.leaf (.list ids)) => some (.leaf (.list (ids ++ [child])))
    | _ => some (.leaf (.list [child]))

theorem get?_attach (name : String) (kind : RelationKind) (child : ObjectId) (fields : Fields) :
    (attach name kind child fields).get? name = attached kind child (fields.get? name) := by
  have set_self : ∀ slot, (fields.set name slot).get? name = some slot := fun slot => by
    rw [Fields.get?_set, if_pos rfl]
  unfold attach attached
  cases kind with
  | toOne =>
    dsimp only
    split
    · rfl
    · exact set_self _
  | toManyDirect =>
    cases fields.get? name with
    | none => exact set_self _
    | some slot =>
      cases slot with
      | embedded inner => exact set_self _
      | leaf content => cases content <;> exact set_self _
  | toManyLinked =>
    cases fields.get? name with
    | none => exact set_self _
    | some slot =>
      cases slot with
      | embedded inner => exact set_self _
      | leaf content => cases content <;> exact set_self _

theorem get?_attach_of_ne {name other : String} (h : other ≠ name) (kind : RelationKind)
    (child : ObjectId) (fields : Fields) :
    (attach name kind child fields).get? other = fields.get? other := by
  have set_other : ∀ slot, (fields.set name slot).get? other = fields.get? other := fun slot => by
    rw [Fields.get?_set, if_neg h.symm]
  unfold attach
  split
  · split
    · rfl
    · exact set_other _
  · split
    · exact set_other _
    · exact set_other _

end Assembly

/-- While objects are assembled, a relation holds some objects: one that leads to many lists them, or
is missing in a value object when there are none; any other refers to the first. -/
def Holds (kind : RelationKind) (nested : Bool) (ids : List ObjectId) (slot : Option Slot) : Prop :=
  match kind with
  | .toOne => slot = ids.head?.map fun id => .leaf (.ref id)
  | _ => slot = some (.leaf (.list ids)) ∨ nested = true ∧ ids = [] ∧ slot = none

/-- One more object is held after those before it. -/
theorem Holds.attached {kind : RelationKind} {nested : Bool} {ids : List ObjectId}
    {slot : Option Slot} (h : Holds kind nested ids slot) (child : ObjectId) :
    Holds kind nested (ids ++ [child]) (Assembly.attached kind child slot) := by
  cases kind with
  | toOne =>
    have held : slot = ids.head?.map fun id => .leaf (.ref id) := h
    cases ids with
    | nil => rw [held]; rfl
    | cons first rest => rw [held]; rfl
  | toManyDirect =>
    rcases h with rfl | ⟨-, rfl, rfl⟩
    · exact .inl rfl
    · exact .inl rfl
  | toManyLinked =>
    rcases h with rfl | ⟨-, rfl, rfl⟩
    · exact .inl rfl
    · exact .inl rfl

/-- In a graph, a relation shows some objects: one that leads to many holds the collection of them, or
is missing in a value object when there are none; any other refers to the first, and is missing if
there is none. -/
def Shows (kind : RelationKind) (nested : Bool) (ids : List ObjectId) (slot : Option Slot) : Prop :=
  match kind with
  | .toOne => slot = ids.head?.map fun id => .leaf (.ref id)
  | _ => slot = some (.leaf (.list ids)) ∨ slot = some (.leaf (.array ids)) ∨
    nested = true ∧ ids = [] ∧ slot = none

theorem Holds.shows {kind : RelationKind} {nested : Bool} {ids : List ObjectId} {slot : Option Slot}
    (h : Holds kind nested ids slot) : Shows kind nested ids slot := by
  cases kind with
  | toOne => exact h
  | toManyDirect => exact h.imp_right .inr
  | toManyLinked => exact h.imp_right .inr

theorem Shows.settled {kind : RelationKind} {nested : Bool} {ids : List ObjectId}
    {slot : Option Slot} (h : Shows kind nested ids slot) :
    Shows kind nested ids (slot.map Slot.settled) := by
  have many : ∀ {slot : Option Slot}, (slot = some (.leaf (.list ids)) ∨
      slot = some (.leaf (.array ids)) ∨ nested = true ∧ ids = [] ∧ slot = none) →
      (slot.map Slot.settled = some (.leaf (.list ids)) ∨
        slot.map Slot.settled = some (.leaf (.array ids)) ∨
        nested = true ∧ ids = [] ∧ slot.map Slot.settled = none) := fun h => by
    rcases h with rfl | rfl | ⟨inside, none, rfl⟩
    · exact .inr (.inl rfl)
    · exact .inr (.inl rfl)
    · exact .inr (.inr ⟨inside, none, rfl⟩)
  cases kind with
  | toOne =>
    have held : slot = ids.head?.map fun id => .leaf (.ref id) := h
    rw [held]
    show _ = _
    cases ids <;> rfl
  | toManyDirect => exact many h
  | toManyLinked => exact many h

theorem Shows.not_embedded {kind : RelationKind} {nested : Bool} {ids : List ObjectId}
    {slot : Option Slot} (h : Shows kind nested ids slot) (inner : Object) :
    slot ≠ some (.embedded inner) := by
  rintro rfl
  cases kind with
  | toOne => cases ids <;> cases h
  | toManyDirect => rcases h with h | h | ⟨-, -, h⟩ <;> cases h
  | toManyLinked => rcases h with h | h | ⟨-, -, h⟩ <;> cases h

/-- Settling lists changes nothing that is shown. -/
theorem Shows.settle {kind : RelationKind} {nested : Bool} {ids : List ObjectId} {o : Object}
    {q : List String} (h : Shows kind nested ids (o.at? q)) (chain : List String) :
    Shows kind nested ids ((o.settle chain).at? q) := by
  rcases Object.at?_settle chain q o with same | settled | ⟨inner, found⟩
  · rw [same]; exact h
  · rw [settled]; exact h.settled
  · exact absurd found (h.not_embedded inner)

end Orm
