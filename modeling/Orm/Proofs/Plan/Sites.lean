import Orm.Proofs.Plan.Derivation
import Orm.Proofs.Schema.Layers
import Orm.Proofs.Object.Path

/-!
# `Proofs.Plan.Sites` — where the relations of an entity lie

A relation of an entity lies in the entity itself or in value objects of it. Its site says where, and
what entity it leads to. The entities of a plan hang together by their sites, and each but the root
hangs off one site only. On an object of a concrete type, the sites that belong to that type lie at
paths that do not lead through each other.

## Contents
- **Sites.** `Site`, `Members.sites`, `Entity.sites`, `Members.edges`.
- **Positions.** `Derives.indices`, `Derivation.indices`: an entity has a position of its own.
- **Names.** `Derives.namesBelow`, `Derives.fresh`, `Entity.Walked.path_inj`.
- **Types.** `Members.Typed`, `Derives.typed`, `FieldPath`, `Members.Typed.fieldPath`.
- **Relations of a type.** `Entity.Walked.fieldPath`, `Entity.Walked.apart`.
- **Concrete types.** `typeOf_of_layout`, `Entity.Walked.describes_typeOf`.
-/

namespace Orm.Plan

open Sql Schema

/-! ## Sites -/

/-- A relation of an entity: the value objects that it lies in, from the outermost in, with their
types; its field and kind; and the entity that it leads to. -/
structure Site where
  chain : List (FieldModel × TypeModel)
  field : FieldModel
  kind : RelationKind
  child : EntityHead
  inner : Members
  deriving DecidableEq, Repr

namespace Site

/-- The entity that the relation leads to. -/
def entity (x : Site) : Entity :=
  ⟨x.child, x.inner⟩

/-- The field of the entity itself that leads to the relation. -/
def gate (x : Site) : FieldModel :=
  (x.chain.head?.map (·.1)).getD x.field

/-- Whether objects of a type have the relation. -/
def applies (x : Site) (t : TypeModel) : Bool :=
  t.isA x.gate.owner

/-- The path of names at which the relation lies in an object. -/
def path (x : Site) : List String :=
  x.chain.map (·.1.name) ++ [x.field.name]

/-- Whether the relation lies in a value object. -/
def nested (x : Site) : Bool :=
  !x.chain.isEmpty

end Site

/-- The relations of members inside some value objects. -/
def Members.sites (chain : List (FieldModel × TypeModel)) : Members → List Site
  | .nil => []
  | .column _ _ rest => rest.sites chain
  | .embedded f t inner rest => inner.sites (chain ++ [(f, t)]) ++ rest.sites chain
  | .relation f kind child inner rest => ⟨chain, f, kind, child, inner⟩ :: rest.sites chain

/-- The relations of an entity. -/
def Entity.sites (e : Entity) : List Site :=
  e.members.sites []

/-- The relations of members and of all entities below, each with the position of the entity that it
belongs to. -/
def Members.edges (owner : Nat) (chain : List (FieldModel × TypeModel)) : Members → List (Nat × Site)
  | .nil => []
  | .column _ _ rest => rest.edges owner chain
  | .embedded f t inner rest => inner.edges owner (chain ++ [(f, t)]) ++ rest.edges owner chain
  | .relation f kind child inner rest =>
    (owner, ⟨chain, f, kind, child, inner⟩) :: (inner.edges child.index [] ++ rest.edges owner chain)

namespace Members

variable {m : Members} {owner : Nat} {chain : List (FieldModel × TypeModel)}

/-- Every entity below members is the one that a site leads to. -/
theorem edges_entities (m : Members) (owner : Nat) (chain : List (FieldModel × TypeModel)) :
    (m.edges owner chain).map (fun p => (p.2.child, p.2.inner)) = m.entities := by
  induction m generalizing owner chain with
  | nil => rfl
  | column f label rest ih => exact ih owner chain
  | embedded f t inner rest inner_ih ih =>
    simp only [edges, entities, List.map_append, inner_ih, ih]
  | relation f kind child inner rest inner_ih ih =>
    simp only [edges, entities, List.map_cons, List.map_append, inner_ih, ih]

theorem mem_edges_of_mem_sites {x : Site} (h : x ∈ m.sites chain) : (owner, x) ∈ m.edges owner chain := by
  induction m generalizing owner chain with
  | nil => cases h
  | column f label rest ih => exact ih h
  | embedded f t inner rest inner_ih ih =>
    rcases List.mem_append.mp h with inside | beside
    · exact List.mem_append_left _ (inner_ih inside)
    · exact List.mem_append_right _ (ih beside)
  | relation f kind child inner rest inner_ih ih =>
    rcases List.mem_cons.mp h with rfl | beside
    · exact List.mem_cons_self
    · exact List.mem_cons_of_mem _ (List.mem_append_right _ (ih beside))

/-- The sites below a site are edges too. -/
theorem edges_below {n : Nat} {x : Site} (h : (n, x) ∈ m.edges owner chain) :
    ∀ p ∈ x.inner.edges x.child.index [], p ∈ m.edges owner chain := by
  intro p hp
  induction m generalizing owner chain with
  | nil => cases h
  | column f label rest ih => exact ih h
  | embedded f t inner rest inner_ih ih =>
    rcases List.mem_append.mp h with inside | beside
    · exact List.mem_append_left _ (inner_ih inside)
    · exact List.mem_append_right _ (ih beside)
  | relation f kind child inner rest inner_ih ih =>
    refine List.mem_cons_of_mem _ ?_
    rcases List.mem_cons.mp h with same | h
    · cases same
      exact List.mem_append_left _ hp
    rcases List.mem_append.mp h with inside | beside
    · exact List.mem_append_left _ (inner_ih inside)
    · exact List.mem_append_right _ (ih beside)

/-- The entities that sites of members lead to are among the entities below, in order. -/
theorem sites_sublist (m : Members) (chain : List (FieldModel × TypeModel)) :
    ((m.sites chain).map fun x => (x.child, x.inner)).Sublist m.entities := by
  induction m generalizing chain with
  | nil => exact List.Sublist.slnil
  | column f label rest ih => exact ih chain
  | embedded f t inner rest inner_ih ih =>
    simp only [sites, entities, List.map_append]
    exact (inner_ih _).append (ih chain)
  | relation f kind child inner rest inner_ih ih =>
    simp only [sites, entities, List.map_cons]
    exact ((ih chain).trans (List.sublist_append_right _ _)).cons_cons _

theorem sites_append (chain : List (FieldModel × TypeModel)) (a b : Members) :
    (a ++ b).sites chain = a.sites chain ++ b.sites chain := by
  show (a.append b).sites chain = _
  induction a with
  | nil => rfl
  | column f label rest ih => simp [append, sites, ih]
  | embedded f t inner rest _ ih => simp [append, sites, ih]
  | relation f k child inner rest _ ih => simp [append, sites, ih]

end Members

/-! ## Positions -/

theorem Draft.counted_withKeys (path : String) (ids : List FieldModel) (d : Draft) :
    (d.withKeys path ids).entityCount = d.entityCount := by
  induction ids generalizing d with
  | nil => rfl
  | cons id rest ih => exact ih _

theorem Linked.counted {scope : Scope} {f : FieldModel} {d d' : Draft} (h : Linked scope f d d') :
    d'.entityCount = d.entityCount := by
  unfold Linked at h
  split at h
  next =>
    obtain ⟨a, -, -, rfl⟩ := h
    rfl
  next => rw [h]

/-- The entities that a part of the walk adds below itself are counted from some position on. -/
def Task.start (d : Draft) : Task → Nat
  | .entity .. => d.entityCount + 1
  | _ => d.entityCount

/-- Positions of members in sequence. -/
theorem indices_append {a b : Members} {start middle finish : Nat}
    (first : a.entities.map (·.1.index) = List.range' start a.entities.length)
    (count : middle = start + a.entities.length)
    (rest : b.entities.map (·.1.index) = List.range' middle b.entities.length)
    (total : finish = middle + b.entities.length) :
    (a ++ b).entities.map (·.1.index) = List.range' start (a ++ b).entities.length ∧
      finish = start + (a ++ b).entities.length := by
  rw [Members.entities_append, List.map_append, List.length_append, first, rest, count,
    List.range'_append_1]
  exact ⟨rfl, by omega⟩

/-- **Entities are numbered in the order of the walk.** -/
theorem Derives.indices {s : Schema} {t : Task} {d d' : Draft} {m : Members}
    {asked : List SelectItem} (h : Derives s t d m asked d') :
    m.entities.map (·.1.index) = List.range' (t.start d) m.entities.length ∧
      d'.entityCount = t.start d + m.entities.length := by
  induction h with
  | key => exact ⟨rfl, rfl⟩
  | column => exact ⟨rfl, rfl⟩
  | computed => exact ⟨rfl, rfl⟩
  | @embedded _ _ _ _ _ _ inner _ _ _ _ _ ih =>
    rw [Members.entities_embedded]
    exact ih
  | @relation scope f d d₁ d' _ _ layout _ inner _ _ _ _ _ linked _ _ ih =>
    rw [Members.entities_relation, List.map_cons, List.length_cons, List.range'_succ]
    have counted := linked.counted
    obtain ⟨numbers, total⟩ := ih
    refine ⟨?_, ?_⟩
    · rw [numbers]
      show d₁.entityCount :: List.range' (d₁.entityCount + 1) _ = d.entityCount :: _
      rw [counted]
      rfl
    · rw [total]
      show d₁.entityCount + 1 + _ = d.entityCount + _
      omega
  | done => exact ⟨rfl, rfl⟩
  | skip _ _ ih => exact ih
  | @next scope f _ d d₁ d' here later _ _ _ _ _ first rest =>
    exact indices_append first.1 first.2 rest.1 rest.2
  | bottom => exact ⟨rfl, rfl⟩
  | @level place p _ d d₁ d' here later _ _ _ _ first rest =>
    have keyed : (d.withKeys p.path place.ids).entityCount = d.entityCount :=
      Draft.counted_withKeys p.path place.ids d
    have first_start : Task.start (d.withKeys p.path place.ids)
        (.fields (place.scope p) p.level.fields) = d.entityCount := keyed
    rw [first_start] at first
    exact indices_append first.1 first.2 rest.1 rest.2
  | @entity _ _ _ _ _ d d₁ d' _ _ _ _ _ late ih =>
    obtain ⟨joins, groups, rfl⟩ := late_of_addLate late
    exact ih

/-- The positions of all entities of a plan, the root's first, are those from none on. -/
theorem Derivation.indices {s : Schema} {name : String} {p : Plan} {asked : List SelectItem}
    (h : Derivation s name p asked) :
    p.entities.map (·.head.index) = List.range' 0 p.entities.length := by
  obtain ⟨_, layout, members, d, _, _, derived, rfl⟩ := h
  obtain ⟨numbers, -⟩ := derived.indices
  show 0 :: (members.entities.map fun e => (⟨e.1, e.2⟩ : Entity)).map (·.head.index) = _
  rw [List.map_map]
  show 0 :: members.entities.map (·.1.index) = List.range' 0 (_ + 1)
  rw [numbers, List.range'_succ, List.length_map]
  rfl

/-! ## Names -/

/-- The path of a relation below a path, along some names. -/
def pathBelow (base : String) (names : List String) : String :=
  names.foldl joinPath base

theorem pathBelow_concat (base : String) (names : List String) (name : String) :
    pathBelow base (names ++ [name]) = joinPath (pathBelow base names) name := by
  unfold pathBelow
  rw [List.foldl_append]
  rfl

/-- The sites of members lead to entities whose paths are told by names. -/
def Task.NamesBelow (m : Members) : Task → Prop
  | .field scope _ | .fields scope _ => ∀ base chain,
    scope.relationBase = pathBelow base (chain.map (·.1.name)) →
      ∀ x ∈ m.sites chain, x.child.path = pathBelow base x.path
  | .levels place _ => ∀ x ∈ m.sites [], x.child.path = pathBelow place.relationBase x.path
  | .entity _ relationBase .. => ∀ x ∈ m.sites [], x.child.path = pathBelow relationBase x.path

/-- **The path of an entity is made of the names that lead to it.** -/
theorem Derives.namesBelow {s : Schema} {t : Task} {d d' : Draft} {m : Members}
    {asked : List SelectItem} (h : Derives s t d m asked d') : t.NamesBelow m := by
  induction h with
  | key => exact fun _ _ _ _ hx => absurd hx List.not_mem_nil
  | column => exact fun _ _ _ _ hx => absurd hx List.not_mem_nil
  | computed => exact fun _ _ _ _ hx => absurd hx List.not_mem_nil
  | @embedded scope f _ _ _ target inner _ _ _ _ _ ih =>
    intro base chain based x hx
    refine ih base (chain ++ [(f, target)]) ?_ x (by simpa [Members.sites] using hx)
    show joinPath scope.relationBase f.name = _
    rw [based, List.map_append, List.map_singleton, pathBelow_concat]
  | @relation scope f =>
    intro base chain based x hx
    obtain rfl := List.mem_singleton.mp hx
    show joinPath scope.relationBase f.name = pathBelow base (chain.map (·.1.name) ++ [f.name])
    rw [based, pathBelow_concat]
  | done => exact fun _ _ _ _ hx => absurd hx List.not_mem_nil
  | skip _ _ ih => exact ih
  | next _ _ _ first rest =>
    intro base chain based x hx
    rw [Members.sites_append] at hx
    exact (List.mem_append.mp hx).elim (first base chain based x) (rest base chain based x)
  | bottom => exact fun _ hx => absurd hx List.not_mem_nil
  | level _ _ first rest =>
    intro x hx
    rw [Members.sites_append] at hx
    exact (List.mem_append.mp hx).elim (first _ [] rfl x) (rest x)
  | entity _ _ _ _ ih => exact ih

/-- The paths that a part of the walk finds taken by what it works on and what was before it. -/
def Task.taken (d : Draft) : Task → List String
  | .entity path .. => path :: d.paths
  | _ => d.paths

theorem fresh_append {a b : Members} {d d₁ d' : Draft} (first_grows : ∀ path ∈ d.paths, path ∈ d₁.paths)
    (rest_grows : d₁.Grows d') (first : (a.entities.map (·.1.path)).Nodup)
    (first_fresh : ∀ e ∈ a.entities, e.1.path ∈ d₁.paths ∧ e.1.path ∉ d.paths)
    (rest : (b.entities.map (·.1.path)).Nodup)
    (rest_fresh : ∀ e ∈ b.entities, e.1.path ∈ d'.paths ∧ e.1.path ∉ d₁.paths) :
    ((a ++ b).entities.map (·.1.path)).Nodup ∧
      ∀ e ∈ (a ++ b).entities, e.1.path ∈ d'.paths ∧ e.1.path ∉ d.paths := by
  rw [Members.entities_append, List.map_append, List.nodup_append]
  refine ⟨⟨first, rest, ?_⟩, ?_⟩
  · rintro path left other right rfl
    obtain ⟨e, he, rfl⟩ := List.mem_map.mp left
    obtain ⟨e', he', same⟩ := List.mem_map.mp right
    exact (rest_fresh e' he').2 (same ▸ (first_fresh e he).1)
  · intro e he
    rcases List.mem_append.mp he with left | right
    · exact ⟨rest_grows.mem_paths (first_fresh e left).1, (first_fresh e left).2⟩
    · exact ⟨(rest_fresh e right).1, fun taken => (rest_fresh e right).2 (first_grows _ taken)⟩

/-- **Entities take paths of their own.** -/
theorem Derives.fresh {s : Schema} {t : Task} {d d' : Draft} {m : Members}
    {asked : List SelectItem} (h : Derives s t d m asked d') :
    (m.entities.map (·.1.path)).Nodup ∧
      ∀ e ∈ m.entities, e.1.path ∈ d'.paths ∧ e.1.path ∉ t.taken d := by
  induction h with
  | key => exact ⟨List.nodup_nil, fun _ he => absurd he List.not_mem_nil⟩
  | column => exact ⟨List.nodup_nil, fun _ he => absurd he List.not_mem_nil⟩
  | computed => exact ⟨List.nodup_nil, fun _ he => absurd he List.not_mem_nil⟩
  | @embedded _ _ _ _ _ _ inner _ _ _ _ _ ih =>
    rw [Members.entities_embedded]
    exact ih
  | @relation scope f d d₁ d' _ _ layout _ inner _ _ _ _ _ linked _ walk ih =>
    rw [Members.entities_relation]
    obtain ⟨distinct, below⟩ := ih
    have before : ∀ {path}, path ∉ d₁.paths → path ∉ d.paths := fun absent taken =>
      absent (linked.grows.mem_paths taken)
    have own := walk.takes_path
    refine ⟨List.nodup_cons.mpr ⟨?_, distinct⟩, ?_⟩
    · intro again
      obtain ⟨e, he, same⟩ := List.mem_map.mp again
      refine (below e he).2 ?_
      rw [same]
      exact List.mem_cons_self
    · intro e he
      rcases List.mem_cons.mp he with rfl | inside
      · exact ⟨own.1, before own.2⟩
      · obtain ⟨there, absent⟩ := below e inside
        exact ⟨there, before fun taken => absent (List.mem_cons_of_mem _ taken)⟩
  | done => exact ⟨List.nodup_nil, fun _ he => absurd he List.not_mem_nil⟩
  | skip _ _ ih => exact ih
  | @next _ _ _ _ _ _ _ _ _ _ _ one two first rest =>
    exact fresh_append (fun _ => one.grows.mem_paths) two.grows first.1 first.2 rest.1 rest.2
  | bottom => exact ⟨List.nodup_nil, fun _ he => absurd he List.not_mem_nil⟩
  | @level place p _ d _ _ _ _ _ _ one two first rest =>
    have keyed := Draft.grows_withKeys p.path place.ids d
    have first_fresh := fun e he => And.imp_right (fun absent taken => absent (keyed.mem_paths taken))
      (first.2 e he)
    exact fresh_append (fun _ taken => one.grows.mem_paths (keyed.mem_paths taken)) two.grows first.1
      first_fresh rest.1 rest.2
  | @entity path _ _ layout attachment d _ _ _ _ _ _ _ late ih =>
    obtain ⟨distinct, below⟩ := ih
    refine ⟨distinct, fun e he => ?_⟩
    obtain ⟨there, absent⟩ := below e he
    refine ⟨(Draft.grows_late late).mem_paths there, fun taken => absent ?_⟩
    show e.1.path ∈ (d.opened path layout attachment).paths
    rw [Draft.paths_opened]
    rcases List.mem_cons.mp taken with own | earlier
    · exact List.mem_append_right _ (own ▸ List.mem_cons_self)
    · exact List.mem_append_left _ earlier

/-- **Relations of one entity lie at paths of their own.** -/
theorem Entity.Walked.path_inj {s : Schema} {e : Entity} (h : e.Walked s) {x y : Site}
    (hx : x ∈ e.sites) (hy : y ∈ e.sites) (same : x.path = y.path) : x = y := by
  obtain @⟨_, _, _, _, _, _, _, _, _, members, _, -, -, walk⟩ := h
  have distinct : (((members.sites []).map fun x => (x.child, x.inner)).map (·.1.path)).Nodup :=
    ((Members.sites_sublist members []).map _).nodup walk.fresh.1
  rw [List.map_map] at distinct
  refine List.inj_on_of_nodup_map distinct hx hy ?_
  show x.child.path = y.child.path
  rw [walk.namesBelow x hx, walk.namesBelow y hy, same]

/-! ## Types -/

/-- Members whose own fields have a property, each with what its class calls for, and whose value
objects are made of fields of their types. -/
def Members.Typed (s : Schema) (P : FieldModel → Prop) : Members → Prop
  | .nil => True
  | .column f _ rest => (P f ∧ f.isSingle = true) ∧ rest.Typed s P
  | .embedded f t inner rest => (P f ∧ ∃ name, f.cls = .embedded name ∧ s.describe name = .ok t) ∧
    inner.Typed s (· ∈ t.allFields) ∧ rest.Typed s P
  | .relation f kind _ _ rest => (P f ∧ f.isRelation = true ∧ kind = relationKind f) ∧ rest.Typed s P

theorem Members.Typed.append {s : Schema} {P : FieldModel → Prop} {a b : Members} (ha : a.Typed s P)
    (hb : b.Typed s P) : (a ++ b).Typed s P := by
  show (a.append b).Typed s P
  induction a with
  | nil => exact hb
  | column f label rest ih => exact ⟨ha.1, ih ha.2⟩
  | embedded f t inner rest _ ih => exact ⟨ha.1, ha.2.1, ih ha.2.2⟩
  | relation f k child inner rest _ ih => exact ⟨ha.1, ih ha.2⟩

theorem Members.Typed.imp {s : Schema} {P Q : FieldModel → Prop} (sub : ∀ f, P f → Q f) {m : Members}
    (h : m.Typed s P) : m.Typed s Q := by
  induction m with
  | nil => trivial
  | column f label rest ih => exact ⟨h.1.imp_left (sub f), ih h.2⟩
  | embedded f t inner rest _ ih => exact ⟨h.1.imp_left (sub f), h.2.1, ih h.2.2⟩
  | relation f k child inner rest _ ih => exact ⟨h.1.imp_left (sub f), ih h.2⟩

/-- The fields that a part of the walk may meet in its own entity or value object. -/
def Task.Covers (f : FieldModel) : Task → Prop
  | .field _ g => f = g
  | .fields _ fs => f ∈ fs
  | .levels _ ps => ∃ p ∈ ps, f ∈ p.level.fields
  | .entity path _ _ layout _ => ∃ p ∈ placedLevels path layout, f ∈ p.level.fields

/-- **Members are made of the fields that are walked.** -/
theorem Derives.typed {s : Schema} {t : Task} {d d' : Draft} {m : Members}
    {asked : List SelectItem} (h : Derives s t d m asked d') : m.Typed s fun f => t.Covers f := by
  induction h with
  | key single => exact ⟨⟨rfl, single⟩, trivial⟩
  | column single => exact ⟨⟨rfl, single⟩, trivial⟩
  | computed single => exact ⟨⟨rfl, single⟩, trivial⟩
  | embedded cls describes _ _ ih => exact ⟨⟨rfl, _, cls, describes⟩, ih, trivial⟩
  | relation cls =>
    refine ⟨⟨rfl, ?_, rfl⟩, trivial⟩
    unfold FieldModel.isRelation
    rw [cls]
  | done => trivial
  | skip _ _ ih => exact ih.imp fun f hf => List.mem_cons_of_mem _ hf
  | next _ _ _ first rest =>
    refine (first.imp ?_).append (rest.imp fun f hf => List.mem_cons_of_mem _ hf)
    rintro f rfl
    exact List.mem_cons_self
  | bottom => trivial
  | level _ _ first rest =>
    refine (first.imp fun f hf => ⟨_, List.mem_cons_self, hf⟩).append (rest.imp ?_)
    rintro f ⟨p, hp, hf⟩
    exact ⟨p, List.mem_cons_of_mem _ hp, hf⟩
  | entity _ _ _ _ ih => exact ih

/-- What is placed are the levels of the layout. -/
theorem level_of_placed {layout : Layout} {path : String} {p : PlacedLevel}
    (hp : p ∈ placedLevels path layout) : p.level ∈ layout.above ++ layout.main :: layout.below := by
  unfold placedLevels at hp
  rcases List.mem_append.mp hp with above | hp
  · obtain ⟨l, hl, rfl⟩ := List.mem_map.mp above
    exact List.mem_append_left _ hl
  rcases List.mem_cons.mp hp with rfl | below
  · exact List.mem_append_right _ List.mem_cons_self
  · obtain ⟨l, hl, rfl⟩ := List.mem_map.mp below
    exact List.mem_append_right _ (List.mem_cons_of_mem _ hl)

/-- The levels of a layout hold fields of the schema, wherever they are placed. -/
theorem declares_of_placed {s : Schema} {layout : Layout} (h : layout.Sound s) {path : String}
    {p : PlacedLevel} (hp : p ∈ placedLevels path layout) {f : FieldModel} (hf : f ∈ p.level.fields) :
    s.Declares f :=
  h.fields p.level (level_of_placed hp) f hf

/-- **On objects of a described type, the members of an entity that apply are fields of the type.** -/
theorem Entity.Walked.typed {s : Schema} {e : Entity} (h : e.Walked s) {t : TypeModel}
    (described : s.Describes t) :
    e.members.Typed s fun f => t.isA f.owner = true → f ∈ t.allFields := by
  obtain @⟨name, target, layout, _, _, _, _, _, _, members, _, describes, lays, walk⟩ := h
  have sound := (sound_of_layout ⟨name, describes⟩ lays).1
  refine walk.typed.imp ?_
  rintro f ⟨p, hp, hf⟩ isA
  exact mem_allFields_of_isA described (declares_of_placed sound hp hf) isA

/-- A path of names in objects of a type leads through value objects to a relation. -/
inductive FieldPath (s : Schema) : TypeModel → List String → FieldModel → Prop where
  | here {t : TypeModel} {f : FieldModel} (mem : f ∈ t.allFields) (relation : f.isRelation = true) :
      FieldPath s t [f.name] f
  | inside {t u : TypeModel} {g f : FieldModel} {name : String} {path : List String}
      (mem : g ∈ t.allFields) (cls : g.cls = .embedded name) (describes : s.describe name = .ok u)
      (rest : FieldPath s u path f) : FieldPath s t (g.name :: path) f

theorem FieldPath.ne_nil {s : Schema} {t : TypeModel} {path : List String} {f : FieldModel}
    (h : FieldPath s t path f) : path ≠ [] := by
  cases h <;> exact List.cons_ne_nil _ _

theorem not_relation_of_embedded {g : FieldModel} {name : String} (cls : g.cls = .embedded name) :
    g.isRelation = false := by
  unfold FieldModel.isRelation
  rw [cls]

section

variable {s : Schema} {scope : Scope} {f : FieldModel} {d d' : Draft} {m : Members}
  {asked : List SelectItem}

/-- A single value is walked into its column. -/
theorem Derives.of_single (h : Derives s (.field scope f) d m asked d') (single : f.isSingle = true) :
    m = .column f (scope.label f) .nil := by
  cases h with
  | key | column | computed => rfl
  | embedded cls => simp [FieldModel.isSingle, FieldModel.isEmbedded, cls] at single
  | relation cls => simp [FieldModel.isSingle, FieldModel.isRelation, cls] at single

/-- An embedded field is walked into the fields of the type that it is declared with. -/
theorem Derives.of_embedded (h : Derives s (.field scope f) d m asked d') {name : String}
    (cls : f.cls = .embedded name) {target : TypeModel} (describes : s.describe name = .ok target) :
    ∃ inner, m = .embedded f target inner .nil ∧
      Derives s (.fields (scope.inside f target) target.allFields) d inner asked d' := by
  cases h with
  | key single | column single | computed single =>
    simp [FieldModel.isSingle, FieldModel.isEmbedded, cls] at single
  | embedded cls' describes' _ walk =>
    cases cls.symm.trans cls'
    cases describes.symm.trans describes'
    exact ⟨_, rfl, walk⟩
  | relation cls' => cases cls.symm.trans cls'

/-- A relation is walked into an entity. -/
theorem Derives.of_relation (h : Derives s (.field scope f) d m asked d')
    (relation : f.isRelation = true) :
    ∃ child inner, m = .relation f (relationKind f) child inner .nil := by
  cases h with
  | key single | column single | computed single => simp [FieldModel.isSingle, relation] at single
  | embedded cls =>
    rw [not_relation_of_embedded cls] at relation
    cases relation
  | relation => exact ⟨_, _, rfl⟩

end

/-- Where names tell fields apart, a path to a relation does not lead further. -/
theorem FieldPath.eq_of_through {s : Schema} (named : s.NamesFields) {t : TypeModel}
    (described : s.Describes t) {p q : List String} {f g : FieldModel} (hp : FieldPath s t p f)
    (hq : FieldPath s t q g) (sub : p <+: q) : p = q := by
  induction hp generalizing q with
  | here mem relation =>
    cases hq with
    | here => exact sub.eq_of_length rfl
    | inside mem' cls =>
      have same := named.eq_of_name_eq described mem mem' (List.cons_prefix_cons.mp sub).1
      rw [same, not_relation_of_embedded cls] at relation
      cases relation
  | inside mem cls describes _ ih =>
    cases hq with
    | here mem' relation =>
      have same := named.eq_of_name_eq described mem mem' (List.cons_prefix_cons.mp sub).1
      rw [← same, not_relation_of_embedded cls] at relation
      cases relation
    | inside mem' cls' describes' rest' =>
      obtain ⟨names, tails⟩ := List.cons_prefix_cons.mp sub
      obtain rfl := named.eq_of_name_eq described mem mem' names
      rw [cls] at cls'
      cases cls'
      rw [describes] at describes'
      cases describes'
      rw [ih ⟨_, describes⟩ rest' tails]

/-- A site inside some more value objects. -/
def Site.below (chain : List (FieldModel × TypeModel)) (x : Site) : Site :=
  { x with chain := chain ++ x.chain }

theorem Members.sites_eq_map (m : Members) (chain : List (FieldModel × TypeModel)) :
    m.sites chain = (m.sites []).map (Site.below chain) := by
  induction m generalizing chain with
  | nil => rfl
  | column f label rest ih => exact ih chain
  | embedded f t inner rest inner_ih ih =>
    simp only [sites]
    rw [inner_ih (chain ++ [(f, t)]), inner_ih ([] ++ [(f, t)]), ih, List.map_append, List.map_map]
    refine congrArg (· ++ _) (List.map_congr_left fun x _ => ?_)
    show Site.mk (chain ++ [(f, t)] ++ x.chain) x.field x.kind x.child x.inner =
      Site.mk (chain ++ ([(f, t)] ++ x.chain)) x.field x.kind x.child x.inner
    rw [List.append_assoc]
  | relation f kind child inner rest _ ih =>
    simp only [sites]
    rw [ih, List.map_cons]
    refine congrArg (· :: _) ?_
    show _ = Site.mk (chain ++ []) f kind child inner
    rw [List.append_nil]

/-- A relation is of the kind that its field calls for, and it lies on a path of every type that has
the field that leads to it. -/
theorem Members.Typed.fieldPath {s : Schema} {P : FieldModel → Prop} {m : Members} (h : m.Typed s P)
    {x : Site} (hx : x ∈ m.sites []) :
    P x.gate ∧ x.kind = relationKind x.field ∧
      ∀ t : TypeModel, x.gate ∈ t.allFields → FieldPath s t x.path x.field := by
  induction m generalizing P x with
  | nil => cases hx
  | column f label rest ih => exact ih h.2 hx
  | embedded f u inner rest inner_ih ih =>
    obtain ⟨⟨has, name, cls, describes⟩, typed, others⟩ := h
    rcases List.mem_append.mp hx with inside | beside
    · rw [sites_eq_map] at inside
      obtain ⟨y, hy, rfl⟩ := List.mem_map.mp inside
      obtain ⟨mem, kind, paths⟩ := inner_ih typed hy
      exact ⟨has, kind, fun t own => .inside own cls describes (paths u mem)⟩
    · exact ih others beside
  | relation f kind child inner rest _ ih =>
    obtain ⟨⟨has, relation, kinds⟩, others⟩ := h
    rcases List.mem_cons.mp hx with rfl | beside
    · exact ⟨has, kinds, fun t own => .here own relation⟩
    · exact ih others beside

/-! ## Relations of a type -/

namespace Entity.Walked

variable {s : Schema} {e : Entity} {t : TypeModel} {x y : Site}

theorem kind_eq (h : e.Walked s) (hx : x ∈ e.sites) : x.kind = relationKind x.field := by
  obtain @⟨_, _, _, _, _, _, _, _, _, _, _, -, -, walk⟩ := h
  exact (walk.typed.fieldPath hx).2.1

/-- **A relation that a type has lies on a path of the type.** -/
theorem fieldPath (h : e.Walked s) (described : s.Describes t) (hx : x ∈ e.sites)
    (applies : x.applies t = true) : FieldPath s t x.path x.field := by
  obtain ⟨own, -, paths⟩ := (h.typed described).fieldPath hx
  exact paths t (own applies)

/-- **Neither of two relations of a type lies inside the other.** -/
theorem apart (h : e.Walked s) (named : s.NamesFields) (described : s.Describes t)
    (hx : x ∈ e.sites) (hy : y ∈ e.sites) (applies_x : x.applies t = true)
    (applies_y : y.applies t = true) (other : x ≠ y) : Apart x.path y.path := by
  have path_x := h.fieldPath described hx applies_x
  have path_y := h.fieldPath described hy applies_y
  have distinct : x.path ≠ y.path := fun same => other (h.path_inj hx hy same)
  exact ⟨fun sub => distinct (path_x.eq_of_through named described path_y sub),
    fun sub => distinct (path_y.eq_of_through named described path_x sub).symm⟩

end Entity.Walked

/-! ## Concrete types -/

/-- The deepest of some levels is one of them. -/
theorem mem_of_deepest? {levels : List LevelPlan} {l : LevelPlan} (h : deepest? levels = some l) :
    l ∈ levels := by
  have folded : ∀ (rest : List LevelPlan) (first : LevelPlan),
      rest.foldl deeper first ∈ first :: rest := by
    intro rest
    induction rest with
    | nil => exact fun _ => List.mem_cons_self
    | cons next rest ih =>
      intro first
      have later := ih (deeper first next)
      rw [List.foldl_cons]
      rcases List.mem_cons.mp later with same | later
      · rw [same]
        unfold deeper
        split
        · exact List.mem_cons_self
        · exact List.mem_cons_of_mem _ List.mem_cons_self
      · exact List.mem_cons_of_mem _ (List.mem_cons_of_mem _ later)
  cases levels with
  | nil => cases h
  | cons first rest =>
    cases h
    exact folded rest first

/-- The subclass levels of an entity are those of the descendants. -/
theorem owner_of_subclass {path : String} {layout : Layout} {ids : List FieldModel} {l : LevelPlan}
    (hl : l ∈ (placedLevels path layout).map (levelPlan ids)) (role : l.role = .subclass) :
    ∃ level ∈ layout.below, l.owner = level.owner := by
  obtain ⟨p, hp, rfl⟩ := List.mem_map.mp hl
  have role : p.role = .subclass := role
  unfold placedLevels at hp
  rcases List.mem_append.mp hp with above | hp
  · obtain ⟨level, -, rfl⟩ := List.mem_map.mp above
    cases role
  rcases List.mem_cons.mp hp with rfl | below
  · cases role
  · obtain ⟨level, hlevel, rfl⟩ := List.mem_map.mp below
    exact ⟨level, hlevel, rfl⟩

/-- **A row tells the declared type, that of a level below, or one of the candidates.** -/
theorem typeOf_of_layout {P : TypeModel → Prop} {path : String} {layout : Layout}
    (declared : P layout.declared) (below : ∀ level ∈ layout.below, P level.owner)
    (candidates : ∀ d, layout.discrimination = some d → ∀ t ∈ d.candidates, P t) (index : Nat)
    (row : Row) : P (typeOf (entityHead path layout index) row) := by
  unfold typeOf
  split
  case h_1 => exact declared
  case h_2 =>
    unfold levelType
    split
    next l deepest =>
      obtain ⟨mem, present⟩ := List.mem_filter.mp (mem_of_deepest? deepest)
      have role := beq_iff_eq.mp (Bool.and_eq_true_iff.mp present).1
      obtain ⟨level, hlevel, owner⟩ := owner_of_subclass mem role
      rw [owner]
      exact below level hlevel
    next => exact declared
  case h_3 =>
    split
    next plan told =>
      have told : discriminatorPlan path layout = some plan := told
      unfold discriminatorPlan at told
      obtain ⟨discrimination, found, rfl⟩ := Option.map_eq_some_iff.mp told
      unfold discriminatedType
      cases stored : storedName? (row.getOrNull (path ++ "." ++ discrimination.column)) with
      | none => exact declared
      | some registered =>
        rw [Option.bind_some]
        cases candidate : discrimination.candidates.find? (·.registeredName == registered) with
        | none => exact declared
        | some type =>
          exact candidates discrimination found type (List.mem_of_find?_eq_some candidate)
    next => exact declared

/-- **Every row tells a described type.** -/
theorem Entity.Walked.describes_typeOf {s : Schema} {e : Entity} (h : e.Walked s) (row : Row) :
    s.Describes (typeOf e.head row) := by
  obtain @⟨name, target, layout, path, _, _, _, d, _, members, _, describes, lays, walk⟩ := h
  obtain ⟨sound, declared⟩ := sound_of_layout ⟨name, describes⟩ lays
  exact typeOf_of_layout (declared ▸ sound.declared) sound.below sound.candidates d.entityCount row

/-! ## The plan as a whole -/

/-- The entities of a plan hang together as a tree: their positions tell them apart, relations lead
from them to them, and at most one relation leads to each, none to the root. -/
structure Wired (s : Schema) (root : Entity) (es : List Entity) : Prop where
  all : es = root :: root.members.entities.map fun e => ⟨e.1, e.2⟩
  distinct : (es.map (·.head.index)).Nodup
  walked : ∀ e ∈ es, e.Walked s
  closed : ∀ e ∈ es, ∀ x ∈ e.sites, x.entity ∈ es
  parent : ∀ e ∈ es, ∀ x ∈ e.sites, ∀ e' ∈ es, ∀ x' ∈ e'.sites,
    x.child.index = x'.child.index → e = e' ∧ x = x'
  root_index : root.head.index = 0
  child_index : ∀ e ∈ es, ∀ x ∈ e.sites, x.child.index ≠ 0

namespace Wired

variable {s : Schema} {root : Entity} {es : List Entity}

theorem root_mem (h : Wired s root es) : root ∈ es :=
  h.all ▸ List.mem_cons_self

theorem eq_of_index (h : Wired s root es) {e e' : Entity} (he : e ∈ es) (he' : e' ∈ es)
    (same : e.head.index = e'.head.index) : e = e' :=
  List.inj_on_of_nodup_map h.distinct he he' same

theorem distinct_below (h : Wired s root es) :
    (root.head.index :: root.members.entities.map (·.1.index)).Nodup := by
  have all := h.distinct
  rw [h.all, List.map_cons, List.map_map] at all
  exact all

/-- What a relation of an entity leads to is below the root. -/
theorem child_below (h : Wired s root es) {e : Entity} (he : e ∈ es) {x : Site} (hx : x ∈ e.sites) :
    x.child.index ∈ root.members.entities.map (·.1.index) := by
  have mem := h.closed e he x hx
  rw [h.all] at mem
  rcases List.mem_cons.mp mem with same | mem
  · have top : x.child.index = root.head.index := congrArg (·.head.index) same
    exact absurd (top.trans h.root_index) (h.child_index e he x hx)
  · obtain ⟨entry, mem, same⟩ := List.mem_map.mp mem
    exact List.mem_map.mpr ⟨entry, mem, congrArg (·.head.index) same⟩

end Wired

/-- The relations of an entity of a plan are edges. -/
theorem mem_edges_of_mem_entities {root : Entity} {e : Entity}
    (he : e ∈ root :: root.members.entities.map fun e => (⟨e.1, e.2⟩ : Entity)) {x : Site}
    (hx : x ∈ e.sites) : (e.head.index, x) ∈ root.members.edges root.head.index [] := by
  rcases List.mem_cons.mp he with rfl | below
  · exact Members.mem_edges_of_mem_sites hx
  · obtain ⟨entry, mem, rfl⟩ := List.mem_map.mp below
    rw [← Members.edges_entities root.members root.head.index []] at mem
    obtain ⟨edge, leads, rfl⟩ := List.mem_map.mp mem
    exact Members.edges_below leads _ (Members.mem_edges_of_mem_sites hx)

/-- **The entities of every plan hang together as a tree.** -/
theorem wired_of_build {s : Schema} {name : String} {p : Plan} (h : Plan.build s name = .ok p) :
    ∃ root, p.root = some root ∧ Wired s root p.entities := by
  obtain ⟨asked, ⟨derivation⟩⟩ := derivation_of_build h
  have indices := derivation.indices
  have walked := derivation.walked
  obtain ⟨_, layout, members, d, _, _, derived, rfl⟩ := derivation
  set root : Entity := ⟨entityHead layout.main.table.name layout 0, members⟩
  have all : (planOf root d).entities = root :: members.entities.map fun e => ⟨e.1, e.2⟩ := rfl
  have edge : ∀ e ∈ (planOf root d).entities, ∀ x ∈ e.sites,
      (e.head.index, x) ∈ members.edges 0 [] := fun e he x hx => mem_edges_of_mem_entities he hx
  have distinct : ((planOf root d).entities.map (·.head.index)).Nodup := by
    rw [indices]
    exact List.nodup_range'
  have children : ((members.edges 0 []).map (·.2.child.index)).Nodup ∧
      ∀ n ∈ (members.edges 0 []).map (·.2.child.index), n ≠ 0 := by
    have same : (members.edges 0 []).map (·.2.child.index) = members.entities.map (·.1.index) := by
      rw [← Members.edges_entities members 0 [], List.map_map]
      rfl
    obtain ⟨numbers, -⟩ := derived.indices
    rw [same, numbers]
    refine ⟨List.nodup_range', fun n hn => ?_⟩
    have := (List.mem_range'_1.mp hn).1
    exact Nat.ne_of_gt (Nat.lt_of_lt_of_le (Nat.succ_pos _) this)
  refine ⟨root, rfl, ?_⟩
  constructor
  case all => rfl
  case distinct => exact distinct
  case walked => exact walked
  case closed =>
    intro e he x hx
    refine List.mem_cons_of_mem _ (List.mem_map.mpr ⟨(x.child, x.inner), ?_, rfl⟩)
    rw [← Members.edges_entities members 0 []]
    exact List.mem_map.mpr ⟨_, edge e he x hx, rfl⟩
  case parent =>
    intro e he x hx e' he' x' hx' same
    have one := List.inj_on_of_nodup_map children.1 (edge e he x hx) (edge e' he' x' hx') same
    obtain ⟨index, sites⟩ := Prod.mk.inj one
    exact ⟨List.inj_on_of_nodup_map distinct he he' index, sites⟩
  case root_index => rfl
  case child_index => exact fun e he x hx => children.2 _ (List.mem_map.mpr ⟨_, edge e he x hx, rfl⟩)

end Orm.Plan
