import Orm.Assembly.Basic

/-!
# `Proofs.Object.References` — where an object refers to others

A reference lies in a field of the object itself or in one of its value objects. It is given by the
path of names that leads to the field, and by the position it refers to. No operation on objects adds
references, but attaching a child adds the one to the child, at the path of its relation.

## Contents
- **References.** `Fields.references`, `Slot.references`, `map_references`.
- **Fields.** `references_get?`, `references_set`, `references_embedded?`.
- **Steps.** `references_attach`, `references_updateAt`, `references_settle`.
-/

namespace Orm

open Plan

/-! ## References -/

/-- The references of fields, each with the path of names at which it lies. -/
def Fields.references : Fields → List (List String × ObjectId)
  | .nil => []
  | .leaf name content rest => (content.targets.map fun t => ([name], t)) ++ rest.references
  | .embedded name _ _ inner rest =>
    (inner.references.map fun r => (name :: r.1, r.2)) ++ rest.references

/-- The references in the content of a field. -/
def Slot.references (name : String) : Slot → List (List String × ObjectId)
  | .leaf content => content.targets.map fun t => ([name], t)
  | .embedded o => o.fields.references.map fun r => (name :: r.1, r.2)

section

variable {name : String} {fields : Fields} {o : Object} {kind : RelationKind} {child : ObjectId}
  {r : List String × ObjectId}

/-- References without their paths are the positions that the fields refer to. -/
theorem Fields.map_references (fields : Fields) : fields.references.map (·.2) = fields.targets := by
  induction fields with
  | nil => rfl
  | leaf name content rest ih =>
    rw [references, targets, List.map_append, List.map_map, ih]
    exact congrArg (· ++ _) (List.map_id _)
  | embedded name typeName path inner rest inner_ih ih =>
    rw [references, targets, List.map_append, List.map_map, ih, ← inner_ih]
    rfl

/-- Every position that fields refer to is at a path. -/
theorem Fields.mem_targets {t : ObjectId} (h : t ∈ fields.targets) :
    ∃ path, (path, t) ∈ fields.references := by
  rw [← fields.map_references] at h
  obtain ⟨⟨path, t⟩, mem, rfl⟩ := List.mem_map.mp h
  exact ⟨path, mem⟩

/-! ## Fields -/

namespace Fields

theorem references_cons (name : String) (slot : Slot) (rest : Fields) :
    (cons name slot rest).references = slot.references name ++ rest.references := by
  cases slot <;> rfl

/-- What a field refers to, the object refers to. -/
theorem references_get? {slot : Slot} (found : fields.get? name = some slot) :
    slot.references name ⊆ fields.references := by
  induction fields with
  | nil => cases found
  | leaf other content rest ih =>
    rw [get?] at found
    split at found
    next here =>
      cases found
      subst here
      exact List.subset_append_left _ _
    next => exact List.subset_append_of_subset_right _ (ih found)
  | embedded other typeName path inner rest _ ih =>
    rw [get?] at found
    split at found
    next here =>
      cases found
      subst here
      exact List.subset_append_left _ _
    next => exact List.subset_append_of_subset_right _ (ih found)

/-- Setting a field adds what its content refers to. -/
theorem references_set {slot : Slot} (h : r ∈ (fields.set name slot).references) :
    r ∈ slot.references name ∨ r ∈ fields.references := by
  induction fields with
  | nil =>
    rw [set, references_cons] at h
    exact List.mem_append.mp h
  | leaf other content rest ih =>
    rw [set] at h
    rw [references, List.mem_append]
    split at h
    · rw [references_cons, List.mem_append] at h
      exact h.imp_right .inr
    · rw [references, List.mem_append] at h
      rcases h with here | later
      · exact .inr (.inl here)
      · exact (ih later).imp_right .inr
  | embedded other typeName path inner rest _ ih =>
    rw [set] at h
    rw [references, List.mem_append]
    split at h
    · rw [references_cons, List.mem_append] at h
      exact h.imp_right .inr
    · rw [references, List.mem_append] at h
      rcases h with here | later
      · exact .inr (.inl here)
      · exact (ih later).imp_right .inr

/-- Setting a field to something without references adds none. -/
theorem references_set_subset {slot : Slot} (none : slot.references name = []) :
    (fields.set name slot).references ⊆ fields.references := by
  intro r h
  refine (references_set h).resolve_left fun here => ?_
  rw [none] at here
  exact absurd here List.not_mem_nil

end Fields

/-! ## Steps -/

/-- Attaching a child adds a reference to it. -/
theorem references_attach (h : r ∈ (Assembly.attach name kind child fields).references) :
    r = ([name], child) ∨ r ∈ fields.references := by
  unfold Assembly.attach at h
  split at h
  · split at h
    · exact .inr h
    · exact (Fields.references_set h).imp_left List.mem_singleton.mp
  · split at h
    next ids found =>
      rcases Fields.references_set h with grown | old
      · obtain ⟨t, mem, rfl⟩ := List.mem_map.mp grown
        rcases List.mem_append.mp mem with before | here
        · exact .inr (Fields.references_get? found (List.mem_map.mpr ⟨t, before, rfl⟩))
        · exact .inl (congrArg (Prod.mk _) (List.mem_singleton.mp here))
      · exact .inr old
    next => exact (Fields.references_set h).imp_left List.mem_singleton.mp

namespace Object

/-- What a value object refers to, its owner refers to through the field that holds it. -/
theorem references_embedded? {inner : Object} (found : o.embedded? name = some inner) :
    (inner.fields.references.map fun r => (name :: r.1, r.2)) ⊆ o.fields.references := by
  unfold embedded? at found
  split at found
  next slot content =>
    cases found
    exact Fields.references_get? content
  next => cases found

/-- A change at the end of a chain of value objects adds what it adds there. -/
theorem references_updateAt {change : Fields → Fields}
    (adds : ∀ fields, ∀ r ∈ (change fields).references,
      r = ([name], child) ∨ r ∈ fields.references)
    {chain : List (String × String)} (h : r ∈ (o.updateAt change chain).fields.references) :
    r = (chain.map (·.1) ++ [name], child) ∨ r ∈ o.fields.references := by
  induction chain generalizing o r with
  | nil => exact adds o.fields r h
  | cons step chain ih =>
    obtain ⟨field, typeName⟩ := step
    rcases Fields.references_set h with inside | beside
    · obtain ⟨below, mem, rfl⟩ := List.mem_map.mp inside
      rcases ih mem with rfl | old
      · exact .inl rfl
      cases found : o.embedded? field with
      | none =>
        -- a value object that is made on the way refers to nothing
        rw [found] at old
        exact absurd old List.not_mem_nil
      | some inner =>
        rw [found] at old
        exact .inr (references_embedded? found (List.mem_map.mpr ⟨below, old, rfl⟩))
    · exact .inr beside

theorem references_settled (slot : Slot) : slot.settled.references name = slot.references name := by
  rcases slot with (_ | _ | _ | _) | _ <;> rfl

/-- Settling a collection adds no references. -/
theorem references_settle (chain : List String) (o : Object) :
    (o.settle chain).fields.references ⊆ o.fields.references := by
  intro r h
  induction chain, o using Object.settle.induct generalizing r with
  | case1 o => exact h
  | case2 o last slot found =>
    simp only [settle, found] at h
    rcases Fields.references_set h with here | beside
    · rw [references_settled] at here
      exact Fields.references_get? found here
    · exact beside
  | case3 o last none =>
    simp only [settle, none] at h
    exact h
  | case4 o field next chain inner found ih =>
    simp only [settle, found] at h
    rcases Fields.references_set h with here | beside
    · obtain ⟨below, mem, rfl⟩ := List.mem_map.mp here
      exact references_embedded? found (List.mem_map.mpr ⟨below, ih mem, rfl⟩)
    · exact beside
  | case5 o field next chain none =>
    simp only [settle, none] at h
    exact h

end Object

end

end Orm
