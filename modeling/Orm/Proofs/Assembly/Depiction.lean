import Orm.Proofs.Assembly.Reach
import Orm.Proofs.Plan.JoinOrder

/-!
# `Proofs.Assembly.Depiction` — the graph depicts the rows

The graph that rows are assembled into can be told from the rows alone. It has one object for each
entity and key that a row reaches. A relation of an object refers to the objects of the keys that the
rows reaching the object reach over it: to all of them, each once, in the order of the first row, or
to the first one. The roots are the objects of the root keys, in the order of the first row.

## Contents
- **Depictions.** `Readable`, `Site.childKeys`, `Graph.Depicts`.
- **Graphs.** `Shows.foldl_settle`, `get?_finish`, `rootIds_finish`.
- **Logs of rows.** `Tells.makes`, `Tells.keysIn_rows`, `Tells.childrenIn_rows`.
- **Main result.** `materialize_depicts`.
-/

namespace Orm

open Schema Plan Assembly

/-! ## Depictions -/

/-- The values of all instances can be read: those of the fields that belong to the instance's type,
from the first row that reaches it. -/
def Readable (s : Schema) (root : Entity) (rows : List Row) : Prop :=
  ∀ e keyAt, Reaches root rows e keyAt → ∀ key row,
    (rows.find? fun row => keyAt row == some key) = some row →
      e.members.readable s row e.head.path (fun f => (typeOf e.head row).isA f.owner) = true

/-- Rows that can be read whatever their types are readable. -/
theorem readable_of_all {s : Schema} {root : Entity} {es : List Entity} (wired : Wired s root es)
    {rows : List Row} (all : ∀ row ∈ rows, ∀ e ∈ es,
      e.members.readable s row e.head.path (fun _ => true) = true) : Readable s root rows :=
  fun e _ reached _ row first =>
    Members.readable_of_all (all row (List.mem_of_find?_eq_some first) e (reached.mem wired)) _

/-- The keys that are reached over a relation of the owner with a key: those in the rows that reach the
owner, each once, in the order of the first row. -/
def Plan.Site.childKeys (x : Site) (rows : List Row) (ownerAt : Row → Option Key) (key : Key) :
    List Key :=
  ((rows.filter fun row => ownerAt row == some key).filterMap (keyOf? x.child x.inner)).eraseDups

/-- A graph depicts what rows say of the entities of a plan; `who` names the entity and the key that
each of its objects stands for. -/
structure Graph.Depicts (root : Entity) (rows : List Row) (g : Graph) (who : List (Entity × Key)) :
    Prop where
  arena : g.objects.length = who.length
  distinct : who.Nodup
  reached : ∀ e key, (e, key) ∈ who ↔
    ∃ keyAt, Reaches root rows e keyAt ∧ ∃ row ∈ rows, keyAt row = some key
  roots : g.rootIds.map (who[·]?) =
    (rows.filterMap (keyOf? root.head root.members)).eraseDups.map fun key => some (root, key)
  objects : ∀ id e key keyAt, who[id]? = some (e, key) → Reaches root rows e keyAt →
    ∃ o, g.get? id = some o ∧ o.typeName = (e.told rows keyAt key).name ∧ o.path = e.head.path ∧
      ∀ x ∈ e.sites, x.applies (e.told rows keyAt key) = true →
        ∃ ids, ids.map (who[·]?) =
            (x.childKeys rows keyAt key).map (fun child => some (x.entity, child)) ∧
          Shows x.kind x.nested ids (o.at? x.path)

/-! ## Graphs -/

section

variable {i : Instance} {o : Object} {chains : List (List String)}

theorem typeName_foldl_settle (o : Object) (chains : List (List String)) :
    (chains.foldl (fun o chain => o.settle chain) o).typeName = o.typeName := by
  induction chains generalizing o with
  | nil => rfl
  | cons chain rest ih => exact (ih _).trans (Object.typeName_settle chain o)

theorem path_foldl_settle (o : Object) (chains : List (List String)) :
    (chains.foldl (fun o chain => o.settle chain) o).path = o.path := by
  induction chains generalizing o with
  | nil => rfl
  | cons chain rest ih => exact (ih _).trans (Object.path_settle chain o)

/-- Settled lists show what they held. -/
theorem Shows.foldl_settle {kind : RelationKind} {nested : Bool} {ids : List ObjectId}
    {path : List String} (h : Shows kind nested ids (o.at? path)) (chains : List (List String)) :
    Shows kind nested ids ((chains.foldl (fun o chain => o.settle chain) o).at? path) := by
  induction chains generalizing o with
  | nil => exact h
  | cons chain rest ih => exact ih (h.settle chain)

end

/-- The objects of a graph are the instances, settled. -/
theorem get?_finish (a : Assembly) (id : ObjectId) :
    a.finish.get? id = (a.instances[id]?).map settled :=
  List.getElem?_map

/-- The roots of a graph are the instances of the first entity. -/
theorem rootIds_finish (a : Assembly) :
    a.finish.rootIds.map (a.identities[·]?) =
      (a.identities.filterMap fun p => if p.1 = 0 then some p.2 else none).map
        fun key => some (0, key) := by
  have along : ∀ (rest before : List Instance),
      ((rest.zipIdx before.length).filterMap fun p => if p.1.entity = 0 then some p.2 else none).map
          (((before ++ rest).map fun i => (i.entity, i.key))[·]?) =
        ((rest.map fun i => (i.entity, i.key)).filterMap
          fun p => if p.1 = 0 then some p.2 else none).map fun key => some (0, key) := by
    intro rest
    induction rest with
    | nil => exact fun _ => rfl
    | cons i rest ih =>
      intro before
      have later := ih (before ++ [i])
      rw [List.length_append, List.length_singleton, List.append_assoc, List.singleton_append] at later
      rw [List.zipIdx_cons, List.map_cons, List.filterMap_cons, List.filterMap_cons]
      dsimp only
      by_cases root : i.entity = 0
      · rw [if_pos root, if_pos root]
        dsimp only
        rw [List.map_cons, List.map_cons, later]
        simp [root]
      · rw [if_neg root, if_neg root]
        exact later
  exact along a.instances []

/-! ## Logs of rows -/

section

variable {s : Schema} {root : Entity} {es : List Entity} {rows : List Row}
  {keys : Nat → Row → Option Key} {type : Nat → Key → TypeModel} {e : Entity}
  {keyAt : Row → Option Key}

/-- **Rows meet an entity under the keys under which they reach it.** -/
theorem Tells.keysIn_rows (t : Tells root rows keys type) (wired : Wired s root es)
    (reached : Reaches root rows e keyAt) (some_rows : List Row) :
    keysIn (some_rows.flatMap (root.events type)) e.head.index = some_rows.filterMap keyAt := by
  induction some_rows with
  | nil => rfl
  | cons row rest ih =>
    have split : keysIn (root.events type row ++ rest.flatMap (root.events type)) e.head.index =
        keysIn (root.events type row) e.head.index ++
          keysIn (rest.flatMap (root.events type)) e.head.index :=
      List.filterMap_append
    rw [List.flatMap_cons, split, t.keysIn_events wired reached, ih, List.filterMap_cons]
    cases keyAt row <;> rfl

theorem Tells.met_iff (t : Tells root rows keys type) (wired : Wired s root es)
    (reached : Reaches root rows e keyAt) {some_rows : List Row} {key : Key} :
    .met e.head.index key ∈ some_rows.flatMap (root.events type) ↔
      ∃ row ∈ some_rows, keyAt row = some key := by
  rw [← mem_keysIn, t.keysIn_rows wired reached, List.mem_filterMap]

/-- **Rows that reach an owner join to it the children that they reach.** -/
theorem Tells.childrenIn_rows (t : Tells root rows keys type) (wired : Wired s root es)
    (reached : Reaches root rows e keyAt) {x : Site} (hx : x ∈ e.sites) {key : Key}
    (applies : x.applies (e.told rows keyAt key) = true) (some_rows : List Row) :
    childrenIn (some_rows.flatMap (root.events type)) e.head.index key x.child.index =
      (some_rows.filter fun row => keyAt row == some key).filterMap (keyOf? x.child x.inner) := by
  induction some_rows with
  | nil => rfl
  | cons row rest ih =>
    rw [List.flatMap_cons, childrenIn_append, t.childrenIn_events wired reached hx, ih,
      List.filter_cons]
    by_cases here : keyAt row = some key
    · have child : keys x.child.index row = keyOf? x.child x.inner row := by
        rw [t.child reached hx row, t.keyAt_eq reached, here, Option.bind_some, t.type_eq reached,
          if_pos applies]
      rw [if_pos here, if_pos (beq_iff_eq.mpr here), child, List.filterMap_cons]
      cases keyOf? x.child x.inner row <;> rfl
    · rw [if_neg here, if_neg fun same => here (eq_of_beq same)]
      rfl

/-- The first row that meets an identity is the one that tells its type. -/
theorem Tells.makes (t : Tells root rows keys type) (wired : Wired s root es)
    (readable : Readable s root rows) {before after : List Row} {row : Row}
    (split : rows = before ++ row :: after) :
    Makes s type es row (before.flatMap (root.events type)) (root.events type row) := by
  intro e he key met new
  obtain ⟨keyAt, reached⟩ := exists_reaches wired rows he
  have here := t.keyAt_of_met wired reached met
  have first := find?_of_first split here fun r hr same =>
    new ((t.met_iff wired reached).mpr ⟨r, hr, same⟩)
  refine ⟨?_, readable e keyAt reached key row first⟩
  rw [t.type_eq reached, Entity.told, first]

end

/-! ## Main result -/

/-- The entity at a position. -/
def entityAt (root : Entity) (es : List Entity) (n : Nat) : Entity :=
  (es.find? (·.head.index == n)).getD root

theorem entityAt_eq {s : Schema} {root : Entity} {es : List Entity} (wired : Wired s root es)
    {e : Entity} (he : e ∈ es) : entityAt root es e.head.index = e := by
  unfold entityAt
  cases found : es.find? (·.head.index == e.head.index) with
  | none => exact absurd (List.find?_eq_none.mp found e he) (by simp)
  | some e' =>
    have same := List.find?_some found
    exact wired.eq_of_index (List.mem_of_find?_eq_some found) he (beq_iff_eq.mp same)

section

variable {s : Schema} {root : Entity} {es : List Entity} {rows : List Row}
  {keys : Nat → Row → Option Key} {type : Nat → Key → TypeModel} {a : Assembly}

/-- The entities and keys that the objects of an assembly stand for. -/
def standsFor (root : Entity) (es : List Entity) (a : Assembly) : List (Entity × Key) :=
  a.identities.map fun p => (entityAt root es p.1, p.2)

theorem getElem?_standsFor (id : ObjectId) :
    (standsFor root es a)[id]? = (a.identities[id]?).map fun p => (entityAt root es p.1, p.2) :=
  List.getElem?_map

/-- Positions stand for what their identities say. -/
theorem map_standsFor {ids : List ObjectId} {n : Nat} {ks : List Key} (h : Lists a.identities ids n ks) :
    ids.map ((standsFor root es a)[·]?) = ks.map fun key => some (entityAt root es n, key) := by
  have each : ids.map ((standsFor root es a)[·]?) =
      (ids.map (a.identities[·]?)).map (Option.map fun p => (entityAt root es p.1, p.2)) := by
    rw [List.map_map]
    exact List.map_congr_left fun id _ => getElem?_standsFor id
  rw [each, h, List.map_map]
  rfl

theorem entity_of_mem_identities {log : List Event} (h : Records s type es log a) {p : Nat × Key}
    (hp : p ∈ a.identities) : ∃ e ∈ es, e.head.index = p.1 := by
  obtain ⟨i, hi, rfl⟩ := List.mem_map.mp hp
  obtain ⟨e, he, same, -⟩ := (h.sound i hi).entity
  exact ⟨e, he, same⟩

theorem Records.standsFor_eq_some (wired : Wired s root es) {log : List Event}
    (h : Records s type es log a) {id : ObjectId} {e : Entity} {key : Key} :
    (standsFor root es a)[id]? = some (e, key) ↔
      e ∈ es ∧ a.identities[id]? = some (e.head.index, key) := by
  rw [getElem?_standsFor, Option.map_eq_some_iff]
  constructor
  · rintro ⟨⟨n, k⟩, found, same⟩
    obtain ⟨e', he', rfl⟩ := entity_of_mem_identities h (List.mem_of_getElem? found)
    obtain ⟨entity, rfl⟩ := Prod.mk.inj same
    rw [entityAt_eq wired he'] at entity
    exact entity ▸ ⟨he', found⟩
  · rintro ⟨he, found⟩
    exact ⟨_, found, by rw [entityAt_eq wired he]⟩

/-- **An assembly that records all rows depicts them.** -/
theorem Records.depicts (wired : Wired s root es) (t : Tells root rows keys type)
    (h : Records s type es (rows.flatMap (root.events type)) a) :
    a.finish.Depicts root rows (standsFor root es a) := by
  constructor
  case arena =>
    show (a.instances.map settled).length = ((a.instances.map _).map _).length
    simp only [List.length_map]
  case distinct =>
    refine List.Nodup.map_on (fun p hp q hq same => ?_) h.distinct
    obtain ⟨e, he, p_eq⟩ := entity_of_mem_identities h hp
    obtain ⟨e', he', q_eq⟩ := entity_of_mem_identities h hq
    obtain ⟨entity, key⟩ := Prod.mk.inj same
    rw [← p_eq, ← q_eq, entityAt_eq wired he, entityAt_eq wired he'] at entity
    exact Prod.ext (by rw [← p_eq, ← q_eq, entity]) key
  case reached =>
    intro e key
    rw [List.mem_iff_getElem?]
    constructor
    · rintro ⟨id, found⟩
      obtain ⟨he, at_id⟩ := (h.standsFor_eq_some wired).mp found
      obtain ⟨keyAt, reached⟩ := exists_reaches wired rows he
      have met := mem_identitiesIn.mp (h.mem_identities.mp (List.mem_of_getElem? at_id))
      exact ⟨keyAt, reached, (t.met_iff wired reached).mp met⟩
    · rintro ⟨keyAt, reached, here⟩
      have met := (t.met_iff wired reached).mpr here
      have known := h.mem_identities.mpr (mem_identitiesIn.mpr met)
      obtain ⟨id, at_id⟩ := List.mem_iff_getElem?.mp known
      exact ⟨id, (h.standsFor_eq_some wired).mpr ⟨reached.mem wired, at_id⟩⟩
  case roots =>
    have listed : Lists a.identities a.finish.rootIds 0
        (rows.filterMap (keyOf? root.head root.members)).eraseDups := by
      unfold Lists
      rw [rootIds_finish, h.arena, filterMap_identities, ← wired.root_index,
        t.keysIn_rows wired Reaches.root]
    rw [map_standsFor listed, ← wired.root_index, entityAt_eq wired wired.root_mem]
  case objects =>
    intro id e key keyAt found reached
    obtain ⟨he, at_id⟩ := (h.standsFor_eq_some wired).mp found
    obtain ⟨i, at_instance, entity, key_eq⟩ := instance_of_identity at_id
    have mem := List.mem_of_getElem? at_instance
    have sound := h.sound i mem
    have type_eq : i.type = e.told rows keyAt key := by
      rw [sound.type_eq, entity, key_eq, t.type_eq reached]
    refine ⟨settled i, ?_, ?_, ?_, fun x hx applies => ?_⟩
    · rw [get?_finish, at_instance, Option.map_some]
    · rw [settled, typeName_foldl_settle, sound.typeName, type_eq]
    · obtain ⟨e', he', index, path⟩ := sound.entity
      obtain rfl := wired.eq_of_index he' he (index.trans entity)
      rw [settled, path_foldl_settle, path]
    · obtain ⟨ids, lists, holds⟩ := h.holds e he x hx i mem entity (type_eq ▸ applies)
      rw [entity, key_eq, t.childrenIn_rows wired reached hx applies] at lists
      refine ⟨ids, ?_, holds.shows.foldl_settle i.arrays⟩
      rw [map_standsFor lists]
      have leads : entityAt root es x.child.index = x.entity :=
        entityAt_eq wired (wired.closed e he x hx)
      rw [leads]
      rfl

end

/-- **The graph that a plan assembles from readable rows depicts them.** -/
theorem Plan.materialize_depicts {s : Schema} {name : String} {p : Plan} {rows : List Row}
    (built : Plan.build s name = .ok p) (named : s.NamesFields)
    (readable : ∀ root, p.root = some root → Readable s root rows) :
    ∃ root g who, p.root = some root ∧ p.materialize s (rows.map .ok) = .ok g ∧
      g.Depicts root rows who := by
  obtain ⟨root, has_root, wired⟩ := wired_of_build built
  obtain ⟨keys, type, tells⟩ := exists_tells wired rows
  obtain ⟨a, run, records, -⟩ := addRows_records named wired
    (fun before row after split => tells.makes wired (readable root has_root) split)
    (Records.start s type p.entities)
  refine ⟨root, a.finish, standsFor root p.entities a, has_root, ?_, records.depicts wired tells⟩
  unfold Plan.materialize
  rw [has_root]
  show finish <$> addRows s root {} (rows.map .ok) = _
  rw [run]
  rfl

/-- Rows about two persons of the staff, who live in the same country; the first is an employee with
two projects. The second is not, so the project in the last row belongs to nobody there. -/
def staffRows : List Row := [
  .ofPairs [("person.id", .int 1), ("person.name", .text "Ada"), ("person.employee.id", .int 1),
    ("home.country.code", .text "PT"), ("projects.id", .int 7)],
  .ofPairs [("person.id", .int 1), ("person.name", .text "Ada"), ("person.employee.id", .int 1),
    ("home.country.code", .text "PT"), ("projects.id", .int 8)],
  .ofPairs [("person.id", .int 2), ("person.name", .text "Bo"),
    ("home.country.code", .text "PT"), ("projects.id", .int 9)]]

theorem materialize_depicts_staff : ∃ p root g who, Plan.build staff "Person" = .ok p ∧
    p.root = some root ∧ p.materialize staff (staffRows.map .ok) = .ok g ∧
    g.Depicts root staffRows who ∧ g.rootIds = [0, 4] ∧ g.objectCount = 5 := by
  obtain ⟨p, built, found⟩ := ok_of_map (x := Plan.build staff "Person")
    (f := fun p => (staffRows.all fun row => p.entities.all fun e =>
        e.members.readable staff row e.head.path fun _ => true,
      (p.materialize staff (staffRows.map .ok)).toOption.map fun g => (g.rootIds, g.objectCount)))
    (b := (true, some ([0, 4], 5))) (by decide +kernel)
  obtain ⟨all, shape⟩ := Prod.mk.inj found
  obtain ⟨root, has_root, wired⟩ := wired_of_build built
  have readable : ∀ root, p.root = some root → Readable staff root staffRows := fun root' same => by
    obtain rfl := Option.some.inj (has_root.symm.trans same)
    exact readable_of_all wired fun row hr e he =>
      List.all_eq_true.mp (List.all_eq_true.mp all row hr) e he
  obtain ⟨root, g, who, root_eq, run, depicts⟩ :=
    Plan.materialize_depicts built (by decide +kernel) readable
  rw [run] at shape
  obtain ⟨roots, count⟩ := Prod.mk.inj (Option.some.inj shape)
  exact ⟨p, root, g, who, built, root_eq, run, depicts, roots, count⟩

end Orm
