import Orm.Proofs.Assembly.Streaming
import Orm.Proofs.Object.References
import Orm.Proofs.Object.Rendering

/-!
# `Proofs.Assembly.Descent` — references follow the relations of the plan

An object refers to objects of the entities that its relations lead to, at the path of the relation.
The entities of a plan are a tree, numbered from the root down. So what is assembled stays in the
arena and never leads back, whatever the rows are: positions in the arena may go down along a
reference, since a child can be there before its owner, but the positions of entities go up.

A new object refers to nothing, and linking adds one reference at a time, to a child of the owner.

## Contents
- **New instances.** `references_of_create`, `path_of_create`.
- **Positions.** `Entity.Walked.index_lt`, `Members.entities_below`.
- **Descent.** `Leads`, `Descends`, `Meets.descends`, `Descends.connect`, `Links.descends`.
- **Graphs.** `Graph.Follows`, `Follows.grounded`, `grounded_of_addRows`.
- **Main result.** `Plan.materialize_follows`.
-/

namespace Orm

open Schema Plan Assembly

namespace Assembly

/-! ## New instances -/

section

variable {s : Schema} {row : Row} {path : String} {applies : FieldModel → Bool}
  {chain : List String} {fields : Fields} {e : EntityHead} {members : Members} {key : Key}

/-- Setting a field to what refers to nothing leaves an object without references. -/
theorem references_set_eq_nil {name : String} {slot : Slot} (none : slot.references name = [])
    (h : fields.references = []) : (fields.set name slot).references = [] :=
  List.eq_nil_of_subset_nil (List.Subset.trans (Fields.references_set_subset none) (List.subset_nil.mpr h))

/-- **A new instance refers to nothing.** -/
theorem references_of_create {i : Instance} (h : create s row e members key = .ok i) :
    i.object.fields.references = [] := by
  have making : Making s row e.path (fun (_ : Unit) _ _ => True) fun _ fields => fields.references = [] :=
    { empty := fun _ => rfl
      value := fun _ _ _ _ none => references_set_eq_nil rfl none
      list := fun _ _ _ _ none => references_set_eq_nil rfl none
      embedded := fun _ _ _ => ⟨(), trivial, fun inside none =>
        references_set_eq_nil (List.map_eq_nil_iff.mpr inside) none⟩ }
  exact making.populated (i := ()) trivial (populated_of_create h).1

theorem targets_of_create {i : Instance} (h : create s row e members key = .ok i) :
    i.object.fields.targets = [] := by
  rw [← Fields.map_references, references_of_create h, List.map_nil]

/-- A new instance lies under the path of its entity. -/
theorem path_of_create {i : Instance} (h : create s row e members key = .ok i) :
    i.object.path = e.path := by
  obtain ⟨made, -, result⟩ := ok_bind.mp h
  cases result
  rfl

end

end Assembly

/-! ## Positions -/

namespace Plan

/-- **A relation leads to an entity with a greater position.** -/
theorem Entity.Walked.index_lt {s : Schema} {e : Entity} (h : e.Walked s) {x : Site}
    (hx : x ∈ e.sites) : e.head.index < x.child.index := by
  obtain @⟨_, _, layout, path, _, _, _, d, _, members, _, -, -, walk⟩ := h
  have mem : (x.child, x.inner) ∈ members.entities :=
    (Members.sites_sublist members []).subset (List.mem_map.mpr ⟨x, hx, rfl⟩)
  have counted : x.child.index ∈ members.entities.map (·.1.index) := List.mem_map_of_mem mem
  rw [walk.indices.1] at counted
  exact (List.mem_range'_1.mp counted).1

/-- The entities below an entity are fewer than those that it is among. -/
theorem Members.entities_below {m : Members} {e : EntityHead × Members} (h : e ∈ m.entities) :
    e.2.entities.length < m.entities.length := by
  induction m with
  | nil => cases h
  | column f label rest ih => exact ih h
  | embedded f t inner rest inner_ih ih =>
    rw [entities, List.length_append]
    rcases List.mem_append.mp h with inside | beside
    · have fewer := inner_ih inside
      omega
    · have fewer := ih beside
      omega
  | relation f kind child inner rest inner_ih ih =>
    rw [entities, List.length_cons, List.length_append]
    rcases List.mem_cons.mp h with rfl | h
    · dsimp only
      omega
    rcases List.mem_append.mp h with inside | beside
    · have fewer := inner_ih inside
      omega
    · have fewer := ih beside
      omega

/-- A relation leads to an entity with fewer entities below it. -/
theorem Site.fewer_below {e : Entity} {x : Site} (hx : x ∈ e.sites) :
    x.inner.entities.length < e.members.entities.length :=
  Members.entities_below (e := (x.child, x.inner))
    ((Members.sites_sublist e.members []).subset (List.mem_map.mpr ⟨x, hx, rfl⟩))

end Plan

/-! ## Descent -/

namespace Assembly

/-- A reference of an object of an entity lies where a relation of the entity does, and it leads to an
instance of the entity that the relation leads to. -/
def Leads (e : Entity) (a : Assembly) (r : List String × ObjectId) : Prop :=
  ∃ x ∈ e.sites, x.path = r.1 ∧ ∃ key, a.identities[r.2]? = some (x.child.index, key)

/-- The instances of an assembly are of entities of a plan and refer to what relations lead to; and
only instances that are there have been linked to. -/
structure Descends (es : List Entity) (a : Assembly) : Prop where
  stands : ∀ (id : ObjectId) (i : Instance), a.instances[id]? = some i →
    ∃ e ∈ es, e.head.index = i.entity ∧ i.object.path = e.head.path ∧
      ∀ r ∈ i.object.fields.references, Leads e a r
  linked : ∀ l ∈ a.links, l.parent < a.identities.length

section

variable {s : Schema} {root e : Entity} {es : List Entity} {row : Row} {rows : List Row}
  {members m : Members} {part : Part} {o : Owner} {f : FieldModel} {kind : RelationKind}
  {key childKey : Key} {id child : ObjectId} {type : TypeModel} {a a' : Assembly} {p : Nat × Key}
  {r : List String × ObjectId} {x : Site} {chain : List (FieldModel × TypeModel)}

/-- Instances stay where they are. -/
theorem identity_kept (grown : a.identities <+: a'.identities)
    (found : a.identities[id]? = some p) : a'.identities[id]? = some p := by
  obtain ⟨more, same⟩ := grown
  rw [← same, List.getElem?_append_left (List.getElem?_eq_some_iff.mp found).1, found]

theorem Leads.grow (h : Leads e a r) (grown : a.identities <+: a'.identities) : Leads e a' r := by
  obtain ⟨x, hx, path, key, target⟩ := h
  exact ⟨x, hx, path, key, identity_kept grown target⟩

theorem descends_empty (es : List Entity) : ({} : Assembly).Descends es :=
  ⟨fun _ _ none => absurd none.symm (Option.some_ne_none _), fun _ h => absurd h List.not_mem_nil⟩

theorem Meets.descends (h : Meets s row e.head e.members key a id type a') (he : e ∈ es)
    (descends : a.Descends es) : a'.Descends es := by
  have grown := h.identities_prefix
  cases h with
  | known => exact descends
  | @made i absent created =>
    constructor
    case stands =>
      intro id j found
      have place : (a.instances ++ [i])[id]? = some j := found
      rw [List.getElem?_append] at place
      split at place
      · obtain ⟨e', he', index, path, leads⟩ := descends.stands id j place
        exact ⟨e', he', index, path, fun r hr => (leads r hr).grow grown⟩
      · obtain rfl := List.mem_singleton.mp (List.mem_of_getElem? place)
        refine ⟨e, he, (eq_of_create created).1.symm, path_of_create created, fun r hr => ?_⟩
        rw [references_of_create created] at hr
        exact absurd hr List.not_mem_nil
    case linked => exact fun l hl => (descends.linked l hl).trans_le grown.length_le

/-- **Linking a child adds a reference that follows the relation.** -/
theorem Descends.connect (wired : Wired s root es) (descends : a.Descends es) (he : e ∈ es)
    (hx : x ∈ e.sites) (along : o.chain.map (·.1) ++ [f.name] = x.path)
    (owner : a.identities[o.id]? = some (e.head.index, key))
    (met : a.identities[child]? = some (x.child.index, childKey)) :
    (a.connect o f kind x.child.index child).Descends es := by
  by_cases present : (⟨o.id, x.child.index, child⟩ : Link) ∈ a.links
  · rw [connect_of_mem present]
    exact descends
  rw [connect_of_not_mem present]
  constructor
  case stands =>
    intro id i found
    unfold modify at found
    rw [List.getElem?_modify] at found
    obtain ⟨j, at_j, rfl⟩ := Option.map_eq_some_iff.mp found
    obtain ⟨e', he', index, path, leads⟩ := descends.stands id j at_j
    have kept : ∀ r, Leads e' a r → Leads e'
        (({ a with links := a.links ++ [⟨o.id, x.child.index, child⟩] } : Assembly).modify o.id
          (·.updateAt (attach f.name kind child) o.chain)) r := fun r led =>
      led.grow (identities_modify .. ▸ List.prefix_rfl)
    -- Only the owner has one more reference, and it leads to the child.
    by_cases here : o.id = id
    · subst here
      rw [if_pos rfl]
      have own : j.entity = e.head.index :=
        (Prod.mk.inj (Option.some.inj ((identity_of_instance at_j).symm.trans owner))).1
      obtain rfl := wired.eq_of_index he' he (index.trans own)
      refine ⟨e', he', index, (Object.path_updateAt _ _ _).trans path, fun r hr => kept r ?_⟩
      rcases Object.references_updateAt (fun _ _ => references_attach) hr with rfl | old
      · exact ⟨x, hx, along.symm, childKey, met⟩
      · exact leads r old
    · rw [if_neg here]
      exact ⟨e', he', index, path, fun r hr => kept r (leads r hr)⟩
  case linked =>
    intro l hl
    rw [identities_modify]
    rcases List.mem_append.mp hl with old | new
    · exact descends.linked l old
    · rw [List.mem_singleton.mp new]
      exact (List.getElem?_eq_some_iff.mp owner).1

/-- **Linking adds references that follow relations.** -/
theorem Links.descends (chain : List (FieldModel × TypeModel)) (wired : Wired s root es)
    (h : Links s row m part o a a') (he : e ∈ es) (sites : m.sites chain ⊆ e.sites)
    (along : o.chain.map (·.1) = chain.map (·.1.name))
    (owner : a.identities[o.id]? = some (e.head.index, key)) (descends : a.Descends es) :
    a'.Descends es := by
  -- Instances keep their identities while others are added, so the owner is still the owner when its
  -- child is linked to it.
  induction h generalizing e key chain with
  | done => exact descends
  | skip idle later ih =>
    exact ih chain he (List.Subset.trans (idle.sites_subset chain) sites) along owner descends
  | @embedded f t inner rest o a a₁ a₂ _ _ relations embedded later ih₁ ih₂ ih₃ =>
    have inside : inner.sites (chain ++ [(f, t)]) ⊆ e.sites := fun x hx =>
      sites (List.mem_append_left _ hx)
    have beside : rest.sites chain ⊆ e.sites := fun x hx => sites (List.mem_append_right _ hx)
    have deeper : (o.inside f.name t.name).chain.map (·.1) =
        (chain ++ [(f, t)]).map (·.1.name) := by
      show (o.chain ++ [(f.name, t.name)]).map (·.1) = _
      rw [List.map_append, List.map_append, along]
      rfl
    have owner₁ := identity_kept relations.identities_prefix owner
    have owner₂ := identity_kept embedded.identities_prefix owner₁
    exact ih₃ chain he beside along owner₂
      (ih₂ _ he inside deeper owner₁ (ih₁ _ he inside deeper owner descends))
  | @relation f kind child inner rest o k id type a a₁ a₂ a₃ _ _ _ met relations embedded later ih₁ ih₂
      ih₃ =>
    have here : (⟨chain, f, kind, child, inner⟩ : Site) ∈ e.sites := sites List.mem_cons_self
    have beside : rest.sites chain ⊆ e.sites := fun x hx => sites (List.mem_cons_of_mem _ hx)
    have below : (⟨child, inner⟩ : Entity) ∈ es := wired.closed e he _ here
    have grown := relations.identities_prefix.trans embedded.identities_prefix
    have owner₃ := identity_kept (met.identities_prefix.trans grown) owner
    have child₃ := identity_kept grown met.identity
    -- what is below the child is linked to the child, and the child then to the owner
    have descends₁ : a₁.Descends es := Meets.descends (e := ⟨child, inner⟩) met below descends
    have descends₂ := ih₁ [] (e := ⟨child, inner⟩) below (List.Subset.refl _) rfl met.identity
      descends₁
    have descends₃ := ih₂ [] (e := ⟨child, inner⟩) below (List.Subset.refl _) rfl
      (identity_kept relations.identities_prefix met.identity) descends₂
    have joined : (a₃.connect o f kind child.index id).Descends es :=
      descends₃.connect wired he here (by rw [along]; rfl) owner₃ child₃
    have owner₄ : (a₃.connect o f kind child.index id).identities[o.id]? =
        some (e.head.index, key) := by
      rw [identities_connect]
      exact owner₃
    exact ih₃ chain he beside along owner₄ joined

theorem Adds.descends (wired : Wired s root es) (h : Adds s root row a a')
    (descends : a.Descends es) : a'.Descends es := by
  cases h with
  | unkeyed => exact descends
  | keyed present met relations embedded =>
    have top := wired.root_mem
    have linked := Links.descends [] wired relations top (List.Subset.refl _) rfl met.identity
      (met.descends top descends)
    exact Links.descends [] wired embedded top (List.Subset.refl _) rfl
      (identity_kept relations.identities_prefix met.identity) linked

theorem addRows_descends (wired : Wired s root es) (descends : a.Descends es)
    {rows : List (Except Error Row)} (h : addRows s root a rows = .ok a') : a'.Descends es := by
  induction rows generalizing a with
  | nil =>
    cases h
    exact descends
  | cons row rest ih =>
    obtain ⟨row, -, h⟩ := ok_bind.mp h
    obtain ⟨a₁, added, later⟩ := ok_bind.mp h
    exact ih ((addRow_eq_ok_iff.mp added).descends wired descends) later

/-- Settled collections refer to what they referred to. -/
theorem references_settled (i : Instance) :
    (settled i).fields.references ⊆ i.object.fields.references := by
  have along : ∀ (chains : List (List String)) (o : Object),
      (chains.foldl (fun o chain => o.settle chain) o).fields.references ⊆ o.fields.references := by
    intro chains
    induction chains with
    | nil => exact fun o => List.Subset.refl _
    | cons chain rest ih =>
      exact fun o => List.Subset.trans (ih (o.settle chain)) (Object.references_settle chain o)
  exact along i.arrays i.object

end

end Assembly

/-! ## Graphs -/

/-- The objects of a graph are of entities, each under the path of its entity: the roots of the first
one. What an object refers to at a path is there, and it is of the entity that the relation at this
path leads to, which has a greater position. -/
structure Graph.Follows (g : Graph) (root : Entity) (es : List Entity) (who : ObjectId → Entity) :
    Prop where
  roots : ∀ id ∈ g.rootIds, id < g.objectCount ∧ who id = root
  objects : ∀ id o, g.get? id = some o → who id ∈ es ∧ o.path = (who id).head.path
  references : ∀ id o, g.get? id = some o → ∀ path t, (path, t) ∈ o.fields.references →
    t < g.objectCount ∧ (who id).head.index < (who t).head.index ∧
      ∃ x ∈ (who id).sites, x.path = path ∧ x.entity = who t

section

variable {s : Schema} {root : Entity} {es : List Entity} {who : ObjectId → Entity} {g : Graph}
  {a : Assembly}

/-- **What follows relations is grounded.** -/
theorem Graph.Follows.grounded (h : g.Follows root es who) :
    g.Grounded fun id => (who id).members.entities.length := by
  have lead : ∀ id t, t ∈ g.targets id → t < g.objectCount ∧
      ∃ x ∈ (who id).sites, x.entity = who t := by
    intro id t ht
    cases found : g.get? id with
    | none =>
      unfold Graph.targets at ht
      rw [found] at ht
      exact absurd ht List.not_mem_nil
    | some o =>
      rw [Graph.targets_of_get? found] at ht
      obtain ⟨path, reference⟩ := Fields.mem_targets ht
      obtain ⟨inside, -, x, hx, -, leads⟩ := h.references id o found path t reference
      exact ⟨inside, x, hx, leads⟩
  constructor
  case roots => exact fun id root => (h.roots id root).1
  case inside => exact fun id t ht => (lead id t ht).1
  case down =>
    intro id t ht
    obtain ⟨-, x, hx, leads⟩ := lead id t ht
    show (who t).members.entities.length < _
    rw [← leads]
    exact Site.fewer_below hx

namespace Assembly

/-- The entity of the object at a position. -/
def entityOf (root : Entity) (es : List Entity) (a : Assembly) (id : ObjectId) : Entity :=
  ((a.identities[id]?).map fun p => entityAt root es p.1).getD root

theorem entityOf_eq (wired : Wired s root es) {e : Entity} (he : e ∈ es) {key : Key} {id : ObjectId}
    (found : a.identities[id]? = some (e.head.index, key)) : entityOf root es a id = e := by
  unfold entityOf
  rw [found, Option.map_some, entityAt_eq wired he]
  rfl

/-- What descends in an assembly follows relations in its graph. -/
theorem Descends.follows (wired : Wired s root es) (h : a.Descends es) :
    a.finish.Follows root es (entityOf root es a) := by
  have count : a.finish.objectCount = a.identities.length := by
    show (a.instances.map settled).length = (a.instances.map _).length
    rw [List.length_map, List.length_map]
  have known : ∀ id o, a.finish.get? id = some o → ∃ i, settled i = o ∧ ∃ e ∈ es,
      entityOf root es a id = e ∧ i.object.path = e.head.path ∧
        ∀ r ∈ i.object.fields.references, Leads e a r := by
    intro id o found
    obtain ⟨i, at_id, rfl⟩ := Option.map_eq_some_iff.mp ((get?_finish a id).symm.trans found)
    obtain ⟨e, he, index, path, leads⟩ := h.stands id i at_id
    have identity := identity_of_instance at_id
    rw [← index] at identity
    exact ⟨i, rfl, e, he, entityOf_eq wired he identity, path, leads⟩
  constructor
  case roots =>
    intro id mem
    obtain ⟨⟨i, n⟩, entry, root_entity⟩ := List.mem_filterMap.mp mem
    obtain ⟨first, same⟩ := Option.ite_none_right_eq_some.mp root_entity
    obtain rfl := Option.some.inj same
    have at_id : a.instances[n]? = some i := List.mk_mem_zipIdx_iff_getElem?.mp entry
    have identity := identity_of_instance at_id
    have top : i.entity = root.head.index := Eq.trans first wired.root_index.symm
    rw [top] at identity
    exact ⟨count ▸ (List.getElem?_eq_some_iff.mp identity).1,
      entityOf_eq wired wired.root_mem identity⟩
  case objects =>
    intro id o found
    obtain ⟨i, rfl, e, he, who, path, -⟩ := known id o found
    rw [who]
    exact ⟨he, (path_foldl_settle i.object i.arrays).trans path⟩
  case references =>
    intro id o found path t reference
    obtain ⟨i, rfl, e, he, who, -, leads⟩ := known id o found
    obtain ⟨x, hx, along, key, target⟩ := leads _ (references_settled i reference)
    have child := entityOf_eq wired (wired.closed e he x hx) (e := x.entity) target
    rw [who, child]
    exact ⟨count ▸ (List.getElem?_eq_some_iff.mp target).1, (wired.walked e he).index_lt hx, x, hx,
      along, rfl⟩

/-- **The graph of rows is grounded.** -/
theorem grounded_of_addRows (wired : Wired s root es) {rows : List (Except Error Row)}
    (h : addRows s root {} rows = .ok a) :
    a.finish.Grounded fun id => (entityOf root es a id).members.entities.length :=
  ((addRows_descends wired (descends_empty es) h).follows wired).grounded

end Assembly

end

/-! ## Main result -/

/-- **The graph of any rows is closed, and its references never lead back.** They follow the relations
of the plan, from every entity to one with a greater position, so every object is rendered to the
end. -/
theorem Plan.materialize_follows {s : Schema} {name : String} {p : Plan}
    {rows : List (Except Error Row)} {g : Graph} (built : Plan.build s name = .ok p)
    (made : p.materialize s rows = .ok g) :
    ∃ root who, p.root = some root ∧ g.Follows root p.entities who ∧
      (WellFounded fun t id => t ∈ g.targets id) ∧
      ∀ id json, g.Renders id json ↔ json = g.json id := by
  obtain ⟨root, has_root, wired⟩ := wired_of_build built
  unfold Plan.materialize at made
  rw [has_root] at made
  obtain ⟨a, run, rfl⟩ : ∃ a, addRows s root {} rows = .ok a ∧ a.finish = g := by
    dsimp only at made
    cases run : addRows s root {} rows with
    | error e =>
      rw [run] at made
      cases made
    | ok a =>
      rw [run] at made
      exact ⟨a, rfl, Except.ok.inj made⟩
  have follows := (addRows_descends wired (descends_empty p.entities) run).follows wired
  exact ⟨root, entityOf root p.entities a, has_root, follows, follows.grounded.wellFounded,
    fun id json => follows.grounded.renders_iff⟩

/-- The two persons of the staff live in the same country. It is there when the second person is made,
so the reference to it leads down in the arena. -/
theorem materialize_follows_staff : ∃ p g root who, Plan.build staff "Person" = .ok p ∧
    p.materialize staff (staffRows.map .ok) = .ok g ∧ p.root = some root ∧
    g.Follows root p.entities who ∧ (WellFounded fun t id => t ∈ g.targets id) ∧
    (∀ id json, g.Renders id json ↔ json = g.json id) ∧
    g.rootIds = [0, 4] ∧ g.targets 4 = [2] := by
  obtain ⟨p, built, found⟩ := ok_of_map (x := Plan.build staff "Person")
    (f := fun p => (p.materialize staff (staffRows.map .ok)).toOption.map fun g =>
      (g.rootIds, g.targets 4))
    (b := some ([0, 4], [2])) (by decide +kernel)
  obtain ⟨g, made, shape⟩ := ok_of_map found
  obtain ⟨roots, shared⟩ := Prod.mk.inj shape
  obtain ⟨root, who, has_root, follows, ends, rendered⟩ := Plan.materialize_follows built made
  exact ⟨p, g, root, who, built, made, has_root, follows, ends, rendered, roots, shared⟩

end Orm
