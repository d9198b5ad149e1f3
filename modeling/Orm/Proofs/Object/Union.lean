import Orm.Proofs.Object.Rendering
import Orm.Proofs.Object.Shift

/-!
# `Proofs.Object.Union` — two graphs in one arena

A graph can be put behind another one, in one arena. If the references of both stay in their arenas
and never lead back, the JSON of all roots is the JSON of the roots of the first graph and then of
those of the second.

Rendering goes down to a depth that depends on the number of all objects, and this number is not the
same in the parts and in the whole. It does not matter: where references never lead back, fewer
objects than there are can lie below one another, so nothing is cut off (`objectJson_eq_json`).

## Contents
- **Unions.** `Graph.union`, `objectJson_union_left`, `objectJson_union_right`.
- **Main result.** `Json.items`, `items_toJson_union`.
-/

namespace Orm

/-- The items of an array. -/
def Json.items : Json → List Json
  | .array items => items
  | _ => []

namespace Graph

section

variable {g h : Graph} {level : ObjectId → Nat} {depth id t : Nat}

/-! ## Unions -/

/-- Two graphs in one arena, the second behind the first. -/
def union (g h : Graph) : Graph where
  objects := g.objects ++ h.objects.map (Object.shift g.objectCount)
  rootIds := g.rootIds ++ h.rootIds.map (g.objectCount + ·)

theorem objectCount_union (g h : Graph) :
    (g.union h).objectCount = g.objectCount + h.objectCount := by
  show (g.objects ++ h.objects.map _).length = _
  rw [List.length_append, List.length_map]
  rfl

theorem get?_union_left (h : Graph) (inside : id < g.objectCount) :
    (g.union h).get? id = g.get? id :=
  List.getElem?_append_left inside

theorem get?_union_right (g h : Graph) (id : ObjectId) :
    (g.union h).get? (g.objectCount + id) = (h.get? id).map (Object.shift g.objectCount) := by
  have beyond : (g.union h).get? (g.objectCount + id) =
      (h.objects.map (Object.shift g.objectCount))[g.objects.length + id - g.objects.length]? :=
    List.getElem?_append_right (Nat.le_add_right g.objects.length id)
  rw [beyond, Nat.add_sub_cancel_left, List.getElem?_map]
  rfl

/-- The objects of the first graph are rendered as they were. -/
theorem objectJson_union_left (closed : ∀ id t, t ∈ g.targets id → t < g.objectCount) (h : Graph)
    (depth : Nat) (inside : id < g.objectCount) :
    (g.union h).objectJson depth id = g.objectJson depth id := by
  induction depth generalizing id with
  | zero => rfl
  | succ depth ih =>
    rw [objectJson, objectJson, get?_union_left h inside]
    cases found : g.get? id with
    | none => rfl
    | some o =>
      have same : ∀ t ∈ o.fields.targets, (g.union h).objectJson depth t = g.objectJson depth t :=
        fun t ht => ih (closed id t ((targets_of_get? found).symm ▸ ht))
      exact congrArg Json.ofMembers (Fields.members_congr same)

/-- The objects of the second graph are rendered as they were, from where they have moved to. -/
theorem objectJson_union_right (g h : Graph) (depth : Nat) (id : ObjectId) :
    (g.union h).objectJson depth (g.objectCount + id) = h.objectJson depth id := by
  induction depth generalizing id with
  | zero => rfl
  | succ depth ih =>
    rw [objectJson, objectJson, get?_union_right]
    cases h.get? id with
    | none => rfl
    | some o =>
      show Json.ofMembers ((o.fields.shift _).members _) = _
      rw [Fields.members_shift, funext ih]

/-! ## Main result -/

/-- **The JSON of a union is that of its parts, one after the other.** -/
theorem items_toJson_union {level' : ObjectId → Nat} (first : g.Grounded level)
    (second : h.Grounded level') :
    (g.union h).toJson.items = g.toJson.items ++ h.toJson.items := by
  have count := objectCount_union g h
  have left : ∀ id ∈ g.rootIds, (g.union h).json id = g.json id := by
    intro id root
    unfold json
    rw [objectJson_union_left first.inside h _ (first.roots id root)]
    exact first.objectJson_eq_json id (by omega)
  have right : ∀ id, (g.union h).json (g.objectCount + id) = h.json id := by
    intro id
    unfold json
    rw [objectJson_union_right]
    exact second.objectJson_eq_json id (by omega)
  show (g.rootIds ++ h.rootIds.map (g.objectCount + ·)).map (g.union h).json = _
  rw [List.map_append, List.map_map, List.map_congr_left left]
  exact congrArg _ (List.map_congr_left fun id _ => right id)

end

end Graph

end Orm
