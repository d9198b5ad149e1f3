import Mathlib.Data.Finset.Card
import Mathlib.Data.Finset.Range
import Orm.Object.Graph

/-!
# `Proofs.Object.Rendering` — rendering a graph comes to an end

An object is rendered with all it refers to, and so is every object on the way, as often as it is
met. Nothing keeps track of what has been rendered, so rendering comes to an end only where references
never lead back. In such a graph every object has one JSON, and it is that down to any depth that is
greater than the number of objects: fewer objects than there are can lie below one another.

## Contents
- **Rendering.** `Graph.Renders`, `Renders.unique`.
- **Grounded graphs.** `Graph.Grounded`, `Graph.below`, `objectJson_eq_json`, `json_eq`.
- **Main result.** `Grounded.wellFounded`, `Grounded.renders_iff`.
-/

namespace Orm

/-! ## Rendering -/

theorem Leaf.toJson_congr {f g : ObjectId → Json} {content : Leaf}
    (same : ∀ t ∈ content.targets, f t = g t) : content.toJson f = content.toJson g := by
  cases content with
  | value v => rfl
  | ref id => exact same id List.mem_cons_self
  | list ids => exact congrArg Json.array (List.map_congr_left same)
  | array ids => exact congrArg Json.array (List.map_congr_left same)

/-- The JSON of fields is told by the JSON of the objects that they refer to. -/
theorem Fields.members_congr {f g : ObjectId → Json} {fields : Fields}
    (same : ∀ t ∈ fields.targets, f t = g t) : fields.members f = fields.members g := by
  induction fields with
  | nil => rfl
  | leaf name content rest ih =>
    have here := Leaf.toJson_congr fun t ht => same t (List.mem_append_left _ ht)
    have later := ih fun t ht => same t (List.mem_append_right _ ht)
    rw [members, members, here, later]
  | embedded name typeName path inner rest inner_ih ih =>
    have here := inner_ih fun t ht => same t (List.mem_append_left _ ht)
    have later := ih fun t ht => same t (List.mem_append_right _ ht)
    rw [members, members, here, later]

namespace Graph

/-- Rendering without a bound on its depth: to render an object is to render all that it refers to.
There is a JSON only if this comes to an end. -/
inductive Renders (g : Graph) : ObjectId → Json → Prop where
  | absent {id : ObjectId} (absent : g.get? id = none) : Renders g id .null
  | object {id : ObjectId} {o : Object} {json : ObjectId → Json} (found : g.get? id = some o)
      (below : ∀ t ∈ o.fields.targets, Renders g t (json t)) :
      Renders g id (Json.ofMembers (o.fields.members json))

section

variable {g : Graph} {level : ObjectId → Nat} {depth id t : Nat}

/-- An object has one JSON at most. -/
theorem Renders.unique {a b : Json} (ha : g.Renders id a) (hb : g.Renders id b) : a = b := by
  induction ha generalizing b with
  | absent absent =>
    cases hb with
    | absent => rfl
    | object found => cases absent.symm.trans found
  | object found _ ih =>
    cases hb with
    | absent absent => cases absent.symm.trans found
    | object found' below' =>
      cases found.symm.trans found'
      exact congrArg Json.ofMembers (Fields.members_congr fun t ht => ih t ht (below' t ht))

/-! ## Grounded graphs -/

/-- The references of a graph stay in its arena and lead down from level to level. -/
structure Grounded (g : Graph) (level : ObjectId → Nat) : Prop where
  roots : ∀ id ∈ g.rootIds, id < g.objectCount
  inside : ∀ id t, t ∈ g.targets id → t < g.objectCount
  down : ∀ id t, t ∈ g.targets id → level t < level id

/-- The number of objects on lower levels. -/
def below (g : Graph) (level : ObjectId → Nat) (id : ObjectId) : Nat :=
  ((Finset.range g.objectCount).filter fun other => level other < level id).card

theorem below_le (g : Graph) (level : ObjectId → Nat) (id : ObjectId) :
    g.below level id ≤ g.objectCount := by
  have bound := Finset.card_filter_le (Finset.range g.objectCount) fun other => level other < level id
  rwa [Finset.card_range] at bound

/-- A reference leads to an object with fewer objects below it: it is below its owner itself. -/
theorem Grounded.below_lt (grounded : g.Grounded level) (refers : t ∈ g.targets id) :
    g.below level t < g.below level id := by
  have lower := grounded.down id t refers
  apply Finset.card_lt_card
  rw [Finset.ssubset_iff_of_subset]
  · refine ⟨t, ?_, ?_⟩
    · rw [Finset.mem_filter, Finset.mem_range]
      exact ⟨grounded.inside id t refers, lower⟩
    · rw [Finset.mem_filter]
      exact fun own => Nat.lt_irrefl _ own.2
  · intro other mem
    rw [Finset.mem_filter] at mem ⊢
    exact ⟨mem.1, mem.2.trans lower⟩

theorem targets_of_get? {o : Object} (found : g.get? id = some o) :
    g.targets id = o.fields.targets := by
  unfold targets
  rw [found]
  rfl

/-- **Nothing is cut off at a depth that is greater than the number of objects below.** -/
theorem Grounded.objectJson_eq (grounded : g.Grounded level) {depth' : Nat}
    (enough : g.below level id < depth) (enough' : g.below level id < depth') :
    g.objectJson depth id = g.objectJson depth' id := by
  induction depth generalizing id depth' with
  | zero => exact absurd enough (Nat.not_lt_zero _)
  | succ depth ih =>
    obtain ⟨depth', rfl⟩ := Nat.exists_eq_succ_of_ne_zero (Nat.ne_zero_of_lt enough')
    rw [objectJson, objectJson]
    cases found : g.get? id with
    | none => rfl
    | some o =>
      have same : ∀ t ∈ o.fields.targets, g.objectJson depth t = g.objectJson depth' t := by
        intro t ht
        have fewer := grounded.below_lt ((targets_of_get? found).symm ▸ ht)
        exact ih (by omega) (by omega)
      exact congrArg Json.ofMembers (Fields.members_congr same)

/-- The JSON of an object is what is rendered at any depth from the number of objects up. -/
theorem Grounded.objectJson_eq_json (grounded : g.Grounded level) (id : ObjectId)
    (enough : g.objectCount < depth) : g.objectJson depth id = g.json id := by
  have bound := g.below_le level id
  exact grounded.objectJson_eq (by omega) (by omega)

/-- The JSON of an object is made of the JSON of the objects it refers to. -/
theorem Grounded.json_eq (grounded : g.Grounded level) {o : Object} (found : g.get? id = some o) :
    g.json id = Json.ofMembers (o.fields.members g.json) := by
  rw [← grounded.objectJson_eq_json id (Nat.lt_succ_of_lt (Nat.lt_succ_self g.objectCount)),
    objectJson, found]
  rfl

/-! ## Main result -/

/-- **References of a grounded graph end somewhere.** -/
theorem Grounded.wellFounded (grounded : g.Grounded level) :
    WellFounded fun t id => t ∈ g.targets id :=
  Subrelation.wf (grounded.down _ _) (InvImage.wf level Nat.lt_wfRel.wf)

/-- **In a grounded graph every object is rendered to the end, as the JSON it has.** -/
theorem Grounded.renders_iff (grounded : g.Grounded level) {result : Json} :
    g.Renders id result ↔ result = g.json id := by
  have ends : ∀ id, g.Renders id (g.json id) := by
    intro id
    induction id using grounded.wellFounded.induction with
    | _ id ih =>
      cases found : g.get? id with
      | none =>
        have null : g.json id = .null := by
          unfold json
          rw [objectJson, found]
        exact null ▸ .absent found
      | some o =>
        rw [grounded.json_eq found]
        exact .object found fun t ht => ih t ((targets_of_get? found).symm ▸ ht)
  exact ⟨fun rendered => rendered.unique (ends id), fun same => same ▸ ends id⟩

end

end Graph

end Orm
