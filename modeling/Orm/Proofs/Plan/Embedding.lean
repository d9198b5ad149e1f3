import Mathlib.Data.List.Infix
import Orm.Proofs.Plan.Limits
import Orm.Proofs.Plan.SelectList

/-!
# `Proofs.Plan.Embedding` — value objects in a plan

A value object has no table. Its single values are columns of the level that it is embedded in, and its
relations hang off that level. Four beginnings grow on the way in, one with each embedded field: those
of labels, of columns, of field paths, and of the paths of relations. This module follows a chain of
embedded fields through a derivation and tells what the beginnings have come to at its end.

## Contents
- **Chains.** `Schema.Embeds`.
- **Scopes.** `Scope.along` and what its beginnings are.
- **Parts of a walk.** `Stage`, `Stage.PartOf`, `Derives.exists_field`, `Derives.exists_along`,
  `Derives.exists_level`, `Entity.Stands`.
- **Tables.** `EntityHead.tables`, `Members.tables`, `Derives.paths_eq`.
- **Paths in words.** `dottedPath`, `pathBelow_eq_dottedPath`.
- **Values and relations.** `Plan.ColumnAt`, `Plan.HangsAt`, `Derivation.columnAt`, `Derivation.hangsAt`.
- **Main result.** `Plan.embedded_places`.
-/

namespace Orm

open Sql Schema

/-! ## Chains -/

/-- A chain of embedded fields leads from some fields to those of a value object. Each of them is stored,
and each but the first is a field of the value object before it. -/
inductive Schema.Embeds (s : Schema) :
    List FieldModel → List (FieldModel × TypeModel) → List FieldModel → Prop where
  | here {fs : List FieldModel} : Embeds s fs [] fs
  | inside {fs inner : List FieldModel} {f : FieldModel} {name : String} {target : TypeModel}
      {chain : List (FieldModel × TypeModel)} (mem : f ∈ fs) (stored : f.transient = false)
      (cls : f.cls = .embedded name) (describes : s.describe name = .ok target)
      (rest : Embeds s target.allFields chain inner) : Embeds s fs ((f, target) :: chain) inner

namespace Plan

/-! ## Scopes -/

/-- The scope of the fields at the end of a chain. -/
def Scope.along (scope : Scope) (chain : List (FieldModel × TypeModel)) : Scope :=
  chain.foldl (fun scope x => scope.inside x.1 x.2) scope

section

variable {scope : Scope} {chain : List (FieldModel × TypeModel)}

theorem Scope.along_levelAlias (scope : Scope) (chain : List (FieldModel × TypeModel)) :
    (scope.along chain).levelAlias = scope.levelAlias := by
  induction chain generalizing scope with
  | nil => rfl
  | cons x rest ih => exact ih (scope.inside x.1 x.2)

/-- Labels and columns begin with what is made of the chain. -/
theorem Scope.Within.along {outer : List FieldModel} (h : scope.Within outer) :
    (scope.along chain).Within (outer ++ chain.map (·.1)) := by
  induction chain generalizing scope outer with
  | nil =>
    rw [List.map_nil, List.append_nil]
    exact h
  | cons x rest ih =>
    rw [List.map_cons, List.append_cons]
    exact ih (h.inside x.1 x.2)

/-- The paths of relations begin with the names of the chain. -/
theorem Scope.along_relationBase (scope : Scope) (chain : List (FieldModel × TypeModel)) :
    (scope.along chain).relationBase = pathBelow scope.relationBase (chain.map (·.1.name)) := by
  induction chain generalizing scope with
  | nil => rfl
  | cons x rest ih => exact ih (scope.inside x.1 x.2)

end

/-! ## Parts of a walk -/

/-- What a part of the walk has come to: the value objects that it was in, its members, the entries that
it asked for, and the draft that it left. -/
structure Stage where
  chain : List (FieldModel × TypeModel)
  members : Members
  asked : List SelectItem
  draft : Draft

/-- What one part of the walk has come to is in what another has, and has been kept. -/
structure Stage.PartOf (x y : Stage) : Prop where
  cells : x.members.cells (x.chain.map (·.1)) ⊆ y.members.cells (y.chain.map (·.1))
  sites : x.members.sites x.chain ⊆ y.members.sites y.chain
  asked : x.asked <:+: y.asked
  kept : x.draft.Keeps y.draft

namespace Stage.PartOf

variable {chain : List (FieldModel × TypeModel)} {a b : Members} {asked more : List SelectItem}
  {d d' : Draft}

theorem trans {x y z : Stage} (first : x.PartOf y) (rest : y.PartOf z) : x.PartOf z :=
  ⟨List.Subset.trans first.cells rest.cells, List.Subset.trans first.sites rest.sites,
    first.asked.trans rest.asked, first.kept.trans rest.kept⟩

/-- What comes first is part of the whole. -/
theorem first (kept : d.Keeps d') :
    PartOf ⟨chain, a, asked, d⟩ ⟨chain, a ++ b, asked ++ more, d'⟩ := by
  refine ⟨?_, ?_, (List.prefix_append _ _).isInfix, kept⟩
  · rw [Members.cells_append]
    exact List.subset_append_left _ _
  · rw [Members.sites_append]
    exact List.subset_append_left _ _

/-- What comes later is part of the whole. -/
theorem later : PartOf ⟨chain, b, more, d⟩ ⟨chain, a ++ b, asked ++ more, d⟩ := by
  refine ⟨?_, ?_, (List.suffix_append _ _).isInfix, .of_eq rfl rfl⟩
  · rw [Members.cells_append]
    exact List.subset_append_right _ _
  · rw [Members.sites_append]
    exact List.subset_append_right _ _

/-- More may have been asked for before. -/
theorem after (h : PartOf ⟨chain, a, asked, d⟩ ⟨chain, b, more, d'⟩) (keys : List SelectItem) :
    PartOf ⟨chain, a, asked, d⟩ ⟨chain, b, keys ++ more, d'⟩ :=
  ⟨h.cells, h.sites, h.asked.trans (List.suffix_append _ _).isInfix, h.kept⟩

/-- What is in a value object is part of the value object. -/
theorem inside {f : FieldModel} {target : TypeModel} :
    PartOf ⟨chain ++ [(f, target)], a, asked, d⟩
      ⟨chain, .embedded f target a .nil, asked, d⟩ := by
  refine ⟨?_, ?_, List.infix_rfl, .of_eq rfl rfl⟩
  · rw [List.map_append]
    exact List.subset_append_left _ _
  · exact List.subset_append_left _ _

end Stage.PartOf

section

variable {s : Schema} {d d' : Draft} {m : Members} {asked : List SelectItem}

/-- **The walk of some fields has the walk of each stored field in it.** -/
theorem Derives.exists_field {scope : Scope} {fs : List FieldModel} {f : FieldModel} (hf : f ∈ fs)
    (stored : f.transient = false) (h : Derives s (.fields scope fs) d m asked d')
    (chain : List (FieldModel × TypeModel)) : ∃ d₁ here asked₁ d₂,
      Derives s (.field scope f) d₁ here asked₁ d₂ ∧
      Stage.PartOf ⟨chain, here, asked₁, d₂⟩ ⟨chain, m, asked, d'⟩ := by
  induction fs generalizing d m asked with
  | nil => cases hf
  | cons g rest ih =>
    cases h with
    | skip transient walk =>
      rcases List.mem_cons.mp hf with rfl | hf
      · rw [stored] at transient
        cases transient
      · exact ih hf walk
    | next _ first rest =>
      rcases List.mem_cons.mp hf with rfl | hf
      · exact ⟨_, _, _, _, first, .first (rest.keeps trivial)⟩
      · obtain ⟨d₁, here, asked₁, d₂, walk, part⟩ := ih hf rest
        exact ⟨d₁, here, asked₁, d₂, walk, part.trans .later⟩

/-- **The walk of some fields has the walk of each field at the end of a chain in it**, in the scope that
the chain leads to. -/
theorem Derives.exists_along {scope : Scope} {fs inner : List FieldModel}
    {chain : List (FieldModel × TypeModel)} (embeds : s.Embeds fs chain inner) {f : FieldModel}
    (hf : f ∈ inner) (stored : f.transient = false) (h : Derives s (.fields scope fs) d m asked d')
    (outer : List (FieldModel × TypeModel)) : ∃ d₁ here asked₁ d₂,
      Derives s (.field (scope.along chain) f) d₁ here asked₁ d₂ ∧
      Stage.PartOf ⟨outer ++ chain, here, asked₁, d₂⟩ ⟨outer, m, asked, d'⟩ := by
  induction embeds generalizing scope d m asked d' outer with
  | here =>
    rw [List.append_nil]
    exact h.exists_field hf stored outer
  | @inside _ _ g name target chain mem kept cls describes _ ih =>
    obtain ⟨d₁, whole, asked₁, d₂, walk, part⟩ := h.exists_field mem kept outer
    obtain ⟨within, rfl, inner_walk⟩ := walk.of_embedded cls describes
    obtain ⟨d₃, here, asked₃, d₄, deeper, part'⟩ := ih hf inner_walk (outer ++ [(g, target)])
    rw [List.append_assoc, List.singleton_append] at part'
    exact ⟨d₃, here, asked₃, d₄, deeper, part'.trans (Stage.PartOf.inside.trans part)⟩

/-- The walk of some levels has the walk of the fields of each level in it. -/
theorem Derives.exists_level {place : Place} {ps : List PlacedLevel} {q : PlacedLevel} (hq : q ∈ ps)
    (h : Derives s (.levels place ps) d m asked d') : ∃ d₁ here asked₁ d₂,
      Derives s (.fields (place.scope q) q.level.fields) d₁ here asked₁ d₂ ∧
      Stage.PartOf ⟨[], here, asked₁, d₂⟩ ⟨[], m, asked, d'⟩ := by
  induction ps generalizing d m asked with
  | nil => cases hq
  | cons p rest ih =>
    cases h with
    | level first rest =>
      rcases List.mem_cons.mp hq with rfl | hq
      · exact ⟨_, _, _, _, first, (Stage.PartOf.first (rest.keeps trivial)).after _⟩
      · obtain ⟨d₁, here, asked₁, d₂, walk, part⟩ := ih hq rest
        exact ⟨d₁, here, asked₁, d₂, walk, part.trans (Stage.PartOf.later.after _)⟩

end

/-- An entity is what some part of a walk has made for the layout of a described type, with a beginning for
the paths of its relations. What that part asked for and left is in what the walk asked for and left. -/
inductive Entity.Stands (s : Schema) (asked : List SelectItem) (left : Draft) : Entity → String → Prop where
  | intro {name : String} {target : TypeModel} {layout : Layout} {path relationBase : String}
      {walking : List String} {attachment : Option Attachment} {d d' : Draft} {members : Members}
      {asked₁ : List SelectItem} (describes : s.describe name = .ok target)
      (lays : s.layout target = .ok layout)
      (walk : Derives s (.entity path relationBase walking layout attachment) d members asked₁ d')
      (part : asked₁ <:+: asked) (kept : d'.Keeps left) :
      Stands s asked left ⟨entityHead path layout d.entityCount, members⟩ relationBase

theorem Entity.Stands.mono {s : Schema} {asked more : List SelectItem} {d d' : Draft} {e : Entity}
    {base : String} (h : e.Stands s asked d base) (part : asked <:+: more) (kept : d.Keeps d') :
    e.Stands s more d' base := by
  cases h with
  | intro describes lays walk part' kept' =>
    exact .intro describes lays walk (part'.trans part) (kept'.trans kept)

/-- **The entities below a part of the walk have their relations below their own paths.** -/
theorem Derives.stands {s : Schema} {t : Task} {d d' : Draft} {m : Members} {asked : List SelectItem}
    (h : Derives s t d m asked d') :
    ∀ x ∈ m.entities, Entity.Stands s asked d' ⟨x.1, x.2⟩ x.1.path := by
  refine h.forall_entities (P := fun asked d x => Entity.Stands s asked d ⟨x.1, x.2⟩ x.1.path) ?_ ?_
  · exact fun describes lays walk => .intro describes lays walk List.infix_rfl (.of_eq rfl rfl)
  · exact fun part kept stands => stands.mono part kept

/-- What the paths of the relations of an entity begin with: nothing for the root, and its own path for any
other entity. -/
def relationBase (p : Plan) (e : Entity) : String :=
  if p.root = some e then "" else e.head.path

theorem Derivation.stands {s : Schema} {name : String} {p : Plan} {asked : List SelectItem}
    (h : Derivation s name p asked) {e : Entity} (he : e ∈ p.entities) :
    e.Stands s asked h.draft (p.relationBase e) := by
  obtain ⟨_, layout, members, d, describes, lays, derived, rfl⟩ := h
  unfold relationBase
  rcases List.mem_cons.mp he with rfl | below
  · rw [if_pos (show (planOf _ d).root = some _ from rfl)]
    exact .intro (d := {}) describes lays derived List.infix_rfl (.of_eq rfl rfl)
  · obtain ⟨x, hx, rfl⟩ := List.mem_map.mp below
    -- only the root has the first position
    have other : (planOf ⟨entityHead layout.main.table.name layout 0, members⟩ d).root ≠
        some ⟨x.1, x.2⟩ := fun same => by
      obtain ⟨numbers, -⟩ := derived.indices
      have position : x.1.index ∈ List.range' 1 members.entities.length :=
        numbers ▸ List.mem_map_of_mem hx
      have first : x.1.index = 0 := congrArg (·.head.index) (Option.some.inj same).symm
      have := (List.mem_range'_1.mp position).1
      omega
    rw [if_neg other]
    exact derived.stands x hx

/-! ## Tables -/

/-- The paths of the tables of an entity, that of the main level first. -/
def EntityHead.tables (e : EntityHead) : List String :=
  e.path :: (e.levels.eraseIdx e.mainIndex).map (·.path)

/-- The paths of the tables that members lead to, in order. A relation has a link table if it is kept in
one, and the tables of its entity. A value object has no table of its own. -/
def Members.tables : Members → List String
  | .nil => []
  | .column _ _ rest => rest.tables
  | .embedded _ _ inner rest => inner.tables ++ rest.tables
  | .relation _ kind child inner rest =>
    (if kind = .toManyLinked then [linkPath child.path] else []) ++ child.tables ++ inner.tables ++
      rest.tables

theorem Members.tables_append (a b : Members) : (a ++ b).tables = a.tables ++ b.tables := by
  show (a.append b).tables = _
  induction a with
  | nil => rfl
  | column f label rest ih => exact ih
  | embedded f t inner rest _ ih => simp [append, tables, ih]
  | relation f k child inner rest _ ih => simp [append, tables, ih]

/-- The tables of an entity are those that are added with it. -/
theorem tables_entityHead (path : String) (layout : Layout) (attachment : Option Attachment)
    (index : Nat) :
    (entityHead path layout index).tables = (entityAliases path layout attachment).map (·.path) := by
  have main : ((layout.above.map (placedBeside path .ancestor)).map
      (levelPlan layout.declared.idFields)).length = layout.mainIndex := by
    rw [List.length_map, List.length_map]
    rfl
  show path :: (((placedLevels path layout).map (levelPlan _)).eraseIdx layout.mainIndex).map _ = _
  rw [placedLevels, List.map_append, List.map_cons,
    List.eraseIdx_append_of_length_le (Nat.le_of_eq main), main, Nat.sub_self,
    List.eraseIdx_cons_zero]
  simp only [entityAliases, sideLevels, List.map_cons, List.map_append, List.map_map]
  rfl

theorem Draft.paths_withKeys (path : String) (ids : List FieldModel) (d : Draft) :
    (d.withKeys path ids).paths = d.paths := by
  induction ids generalizing d with
  | nil => rfl
  | cons id rest ih =>
    rw [withKeys, ih, paths_registering]
    rfl

/-- A relation that is kept in a link table names one. -/
theorem exists_link_of_kind {f : FieldModel} (kind : relationKind f = .toManyLinked) :
    ∃ link, f.link = some link := by
  unfold relationKind at kind
  split_ifs at kind with _ some
  exact Option.isSome_iff_exists.mp some

/-- A relation that is kept in a link table adds it, joined to the level, and no other relation adds a
table. -/
theorem linked_iff {scope : Scope} {f : FieldModel} {d d' : Draft} : Linked scope f d d' ↔
    if relationKind f = .toManyLinked then ∃ link a, f.link = some link ∧
      linkAlias scope f link (scope.childPath f) = .ok a ∧ a.path ∉ d.paths ∧ d' = d.withAliases [a]
    else d' = d := by
  unfold Linked
  split
  next link kind has_link =>
    rw [if_pos kind]
    exact ⟨fun ⟨a, rest⟩ => ⟨link, a, has_link, rest⟩, fun ⟨_, a, same, rest⟩ =>
      ⟨a, Option.some.inj (has_link.symm.trans same) ▸ rest⟩⟩
  next other =>
    have direct : relationKind f ≠ .toManyLinked := fun kind => by
      obtain ⟨link, has_link⟩ := exists_link_of_kind kind
      exact other link kind has_link
    rw [if_neg direct]

theorem linkAlias_eq {scope : Scope} {f : FieldModel} {link : LinkTable} {path : String} {a : Alias}
    (h : linkAlias scope f link path = .ok a) :
    a.path = linkPath path ∧ a.role = .link ∧ a.parent? = some scope.levelAlias := by
  obtain ⟨id, -, result⟩ := ok_bind.mp h
  cases result
  exact ⟨rfl, rfl, rfl⟩

theorem Linked.paths_eq {scope : Scope} {f : FieldModel} {d d' : Draft} (h : Linked scope f d d') :
    d'.paths = d.paths ++
      if relationKind f = .toManyLinked then [linkPath (scope.childPath f)] else [] := by
  rw [linked_iff] at h
  split_ifs at h ⊢
  · obtain ⟨link, a, -, made, -, rfl⟩ := h
    rw [Draft.paths_withAliases, List.map_singleton, (linkAlias_eq made).1]
  · rw [h, List.append_nil]

/-- The tables that a part of the walk adds before those of its members. -/
def Task.tables : Task → List String
  | .entity path _ _ layout attachment => (entityAliases path layout attachment).map (·.path)
  | _ => []

/-- **Tables are those of entities and of links.** Value objects add none. -/
theorem Derives.paths_eq {s : Schema} {t : Task} {d d' : Draft} {m : Members}
    {asked : List SelectItem} (h : Derives s t d m asked d') :
    d'.paths = d.paths ++ (t.tables ++ m.tables) := by
  induction h with
  | key => exact (List.append_nil _).symm
  | @column scope f d =>
    show (d.registering scope.levelAlias _ _).paths = d.paths ++ []
    rw [Draft.paths_registering, List.append_nil]
  | computed => exact (List.append_nil _).symm
  | embedded _ _ _ _ ih =>
    rw [ih]
    simp [Members.tables, Task.tables]
  | @relation scope f d d₁ d' _ _ layout condition inner _ _ _ _ _ linked _ _ ih =>
    rw [ih, linked.paths_eq]
    simp [Members.tables, Task.tables, ← tables_entityHead _ _ _ d₁.entityCount, entityHead]
  | done => exact (List.append_nil _).symm
  | skip _ _ ih => exact ih
  | next _ _ _ first rest =>
    rw [rest, first]
    simp [Members.tables_append, Task.tables]
  | bottom => exact (List.append_nil _).symm
  | level _ _ first rest =>
    rw [rest, first, Draft.paths_withKeys]
    simp [Members.tables_append, Task.tables]
  | entity _ _ _ late ih =>
    obtain ⟨joins, groups, rfl⟩ := late_of_addLate late
    refine ih.trans ?_
    rw [Draft.paths_opened]
    simp [Task.tables]

/-! ## Paths in words -/

/-- Names with points between them, below a path; below the empty path they stand alone. -/
def dottedPath (base : String) : List FieldModel → String
  | [] => base
  | f :: rest => if base.isEmpty then f.name ++ nameSuffix rest else base ++ nameSuffix (f :: rest)

theorem isEmpty_append_point (base name : String) : (base ++ "." ++ name).isEmpty = false := by
  rw [Bool.eq_false_iff, ne_eq, String.isEmpty_iff]
  simp

theorem pathBelow_of_base {base : String} (some_base : base.isEmpty = false) (fs : List FieldModel) :
    pathBelow base (fs.map (·.name)) = base ++ nameSuffix fs := by
  induction fs generalizing base with
  | nil => exact (String.append_empty).symm
  | cons f rest ih =>
    have joined : joinPath base f.name = base ++ "." ++ f.name := by
      unfold joinPath
      rw [some_base]
      rfl
    show pathBelow (joinPath base f.name) _ = base ++ ("." ++ f.name ++ nameSuffix rest)
    rw [joined, ih (isEmpty_append_point _ _)]
    simp only [String.append_assoc]

/-- **A path is spelled with a point before each name**, but for the first name below nothing. The empty
name of an embedded field there would be lost with its point. -/
theorem pathBelow_eq_dottedPath {base : String} {f : FieldModel} {rest : List FieldModel}
    (begins : base.isEmpty = false ∨ f.name.isEmpty = false) :
    pathBelow base ((f :: rest).map (·.name)) = dottedPath base (f :: rest) := by
  unfold dottedPath
  cases empty : base.isEmpty with
  | false => exact pathBelow_of_base empty (f :: rest)
  | true =>
    have first : joinPath base f.name = f.name := by
      unfold joinPath
      rw [empty]
      rfl
    show pathBelow (joinPath base f.name) _ = f.name ++ nameSuffix rest
    rw [first]
    exact pathBelow_of_base (begins.resolve_left (by simp [empty])) rest

/-! ## Values and relations -/

/-- A single value at the end of a chain is read from a level. Objects read it under its label, which is
selected. Unless it has a text of its own, the column that the prefixes of the chain lead to is asked for
under that label, and it is selected if no earlier request took the label. -/
structure ColumnAt (p : Plan) (e : Entity) (asked : List SelectItem) (table : String)
    (chain : List FieldModel) (f : FieldModel) : Prop where
  cell : ⟨chain, f, table ++ nameSuffix (chain ++ [f])⟩ ∈ e.cells
  selected : table ++ nameSuffix (chain ++ [f]) ∈ p.labels
  column : f.sql = none → ∃ before item after, asked = before ++ item :: after ∧
    item = ⟨.column ⟨table, chainPrefix chain ++ f.column⟩, table ++ nameSuffix (chain ++ [f])⟩ ∧
    ((∃ earlier ∈ before, earlier.label = item.label) ∨ item ∈ p.select)

/-- A relation at the end of a chain hangs off a level. Its path is made of the names of the chain, and its
table, or the link table before it, is joined to the level. The foreign key that is inferred for a single
object is a column of the level, with the prefixes of the chain. -/
structure HangsAt (p : Plan) (x : Site) (table base : String) : Prop where
  path : x.child.path = pathBelow base x.path
  spelled : ∀ first rest, x.chain.map (·.1) ++ [x.field] = first :: rest →
    base.isEmpty = false ∨ first.name.isEmpty = false →
    x.child.path = dottedPath base (first :: rest)
  joined : ∃ a, p.find? x.child.path = some a ∧ a.role = .entity x.child.declared ∧
    a.parent? = some (if x.kind = .toManyLinked then linkPath x.child.path else table)
  linked : x.kind = .toManyLinked → ∃ a, p.find? (linkPath x.child.path) = some a ∧ a.role = .link ∧
    a.parent? = some table
  key : x.kind = .toOne → x.field.joinCondition = none → ∃ a j id,
    p.find? x.child.path = some a ∧ a.join = some j ∧ x.child.declared.idFields = [id] ∧
    j.condition = .columns [(⟨x.child.path, id.column⟩, ⟨table,
      chainPrefix (x.chain.map (·.1)) ++ x.field.joinColumn.getD (x.field.name ++ "_id")⟩)]

section

variable {s : Schema} {name : String} {p : Plan} {asked : List SelectItem}

/-- A request is granted unless an earlier one has its label. -/
theorem Derivation.taken_or_selected (h : Derivation s name p asked)
    {before after : List SelectItem} {item : SelectItem} (split : asked = before ++ item :: after) :
    (∃ earlier ∈ before, earlier.label = item.label) ∨ item ∈ p.select := by
  by_cases taken : ∃ earlier ∈ before, earlier.label = item.label
  · exact .inl taken
  · refine .inr ((h.mem_select_iff item).mpr ?_)
    have none_before : before.find? (·.label == item.label) = none :=
      List.find?_eq_none.mpr fun earlier he same => taken ⟨earlier, he, beq_iff_eq.mp same⟩
    rw [h.find?_select, split, List.find?_append, none_before, Option.none_or, List.find?_cons,
      beq_self_eq_true]

/-- The tables that are kept are those of the plan. -/
theorem Derivation.find?_of_kept (h : Derivation s name p asked) (built : Plan.build s name = .ok p)
    {d : Draft} (kept : d.Keeps h.draft) {a : Alias} (ha : a ∈ d.aliases) :
    ∃ b, p.find? a.path = some b ∧ b.role = a.role ∧ b.join = a.join := by
  obtain ⟨b, hb, path, role, join⟩ := kept.tables a ha
  have there : b ∈ p.aliases := by
    rw [h.plan]
    exact hb
  exact ⟨b, path ▸ find?_of_build built b there, role, join⟩

/-- **Where a single value of a value object is.** -/
theorem Derivation.columnAt (h : Derivation s name p asked) {e : Entity} (he : e ∈ p.entities)
    {scope : Scope} {chain : List (FieldModel × TypeModel)} {f : FieldModel}
    (within : scope.Within (chain.map (·.1))) (single : f.isSingle = true) (no_id : f.id = false)
    {d d' : Draft} {m whole : Members} {part : List SelectItem}
    (walk : Derives s (.field scope f) d m part d')
    (inside : Stage.PartOf ⟨chain, m, part, d'⟩ ⟨[], whole, asked, h.draft⟩)
    (members : whole.cells [] ⊆ e.cells) :
    p.ColumnAt e asked scope.levelAlias (chain.map (·.1)) f := by
  have label : scope.label f = scope.levelAlias ++ nameSuffix (chain.map (·.1) ++ [f]) :=
    within.labelUnder f
  have no_key : scope.isKey f = false := by
    unfold Scope.isKey
    rw [no_id]
    rfl
  have cell_of : m = .column f (scope.label f) .nil →
      ⟨chain.map (·.1), f, scope.levelAlias ++ nameSuffix (chain.map (·.1) ++ [f])⟩ ∈ e.cells := by
    rintro rfl
    rw [← label]
    exact members (inside.cells List.mem_cons_self)
  have selected_of : ∀ {c : Cell}, c.field = f → c ∈ e.cells → c.label ∈ p.labels := by
    rintro c rfl hc
    refine cell_selected h he hc ?_
    unfold Cell.isKey
    rw [no_id]
    rfl
  cases walk with
  | key _ isKey => cases no_key.symm.trans isKey
  | column _ _ no_sql =>
    have cell := cell_of rfl
    refine ⟨cell, selected_of rfl cell, fun _ => ?_⟩
    obtain ⟨before, after, split⟩ := inside.asked
    rw [List.append_assoc, List.singleton_append] at split
    refine ⟨before, _, after, split.symm, ?_, h.taken_or_selected split.symm⟩
    rw [within.prefixed, label]
  | computed _ has_sql =>
    have cell := cell_of rfl
    refine ⟨cell, selected_of rfl cell, fun no_sql => ?_⟩
    rw [no_sql] at has_sql
    cases has_sql
  | embedded cls => simp [FieldModel.isSingle, FieldModel.isEmbedded, cls] at single
  | relation cls => simp [FieldModel.isSingle, FieldModel.isRelation, cls] at single

/-- The foreign key that is inferred for a single object, in a scope. -/
theorem condition_of_toOne {scope : Scope} {f : FieldModel} {target : TypeModel} {table : String}
    {condition : Condition} (kind : relationKind f = .toOne) (inferred : f.joinCondition = none)
    (joined : relationCondition scope f target table (scope.childPath f) = .ok condition) :
    ∃ id, target.idFields = [id] ∧ condition = .columns [(⟨scope.childPath f, id.column⟩,
      ⟨scope.levelAlias, scope.columnPrefix ++ f.joinColumn.getD (f.name ++ "_id")⟩)] := by
  unfold relationCondition inferredCondition at joined
  rw [inferred, kind] at joined
  obtain ⟨id, single, result⟩ := ok_bind.mp joined
  cases result
  unfold singleKey at single
  split at single
  next only ids =>
    cases single
    exact ⟨id, ids, rfl⟩
  next => cases single

/-- A link table hangs off the level of its relation. -/
theorem Linked.exists_table {scope : Scope} {f : FieldModel} {d d' : Draft} (h : Linked scope f d d')
    (kind : relationKind f = .toManyLinked) : ∃ a ∈ d'.aliases,
      a.path = linkPath (scope.childPath f) ∧ a.role = .link ∧ a.parent? = some scope.levelAlias := by
  rw [linked_iff, if_pos kind] at h
  obtain ⟨link, a, -, made, -, rfl⟩ := h
  exact ⟨a, List.mem_append_right _ List.mem_cons_self, linkAlias_eq made⟩

/-- **Where a relation of a value object is.** -/
theorem Derivation.hangsAt (h : Derivation s name p asked) (built : Plan.build s name = .ok p)
    {e : Entity} {scope : Scope} {chain : List (FieldModel × TypeModel)} {f : FieldModel} {base : String}
    (within : scope.Within (chain.map (·.1)))
    (based : scope.relationBase = pathBelow base (chain.map (·.1.name))) (relation : f.isRelation = true)
    {d d' : Draft} {m whole : Members} {part : List SelectItem}
    (walk : Derives s (.field scope f) d m part d')
    (inside : Stage.PartOf ⟨chain, m, part, d'⟩ ⟨[], whole, asked, h.draft⟩)
    (members : whole.sites [] ⊆ e.sites) :
    ∃ x ∈ e.sites, x.chain = chain ∧ x.field = f ∧ p.HangsAt x scope.levelAlias base := by
  have not_single : f.isSingle = false := by
    unfold FieldModel.isSingle
    rw [relation]
    rfl
  cases walk with
  | key single => cases not_single.symm.trans single
  | column single => cases not_single.symm.trans single
  | computed single => cases not_single.symm.trans single
  | embedded cls =>
    rw [not_relation_of_embedded cls] at relation
    cases relation
  | @relation _ _ _ d₁ _ target_name target layout condition inner _ cls describes _ lays linked joined walk =>
    have mem := members (inside.sites List.mem_cons_self)
    refine ⟨_, mem, rfl, rfl, ?_⟩
    have path : scope.childPath f = pathBelow base (chain.map (·.1.name) ++ [f.name]) := by
      rw [Scope.childPath, based, pathBelow_concat]
    obtain ⟨-, declared⟩ := sound_of_layout ⟨target_name, describes⟩ lays
    -- the table of the target and the link table are those of the plan
    obtain ⟨⟨a, ha, a_path, a_role, a_join⟩, -⟩ := walk.hosts
    obtain ⟨b, found, role, join⟩ := h.find?_of_kept built inside.kept ha
    rw [a_path] at found
    have join := join.trans a_join
    constructor
    case path => exact path
    case spelled =>
      intro first rest names begins
      rw [← pathBelow_eq_dottedPath begins, ← names, List.map_append, List.map_map]
      exact path
    case joined =>
      refine ⟨b, found, role.trans a_role, ?_⟩
      unfold Alias.parent?
      rw [join]
      rfl
    case linked =>
      intro kind
      obtain ⟨l, hl, l_path, l_role, l_parent⟩ := linked.exists_table kind
      obtain ⟨k, found', role', join'⟩ := h.find?_of_kept built ((walk.keeps rfl).trans inside.kept) hl
      rw [l_path] at found'
      refine ⟨k, found', role'.trans l_role, ?_⟩
      unfold Alias.parent? at l_parent ⊢
      rw [join', l_parent]
    case key =>
      intro kind inferred
      obtain ⟨id, ids, made⟩ := condition_of_toOne kind inferred joined
      rw [within.prefixed] at made
      exact ⟨b, _, id, found, join, (congrArg _ declared).trans ids, made⟩

end

/-! ## Main result -/

/-- **Where a plan has what value objects are made of.** Follow any chain of embedded fields from the
fields of a level. A single value at its end, other than a key, is read under the names of the chain below
the alias of the level, from the column of the level that the prefixes of the chain lead to, unless it has a
text of its own or an earlier request took its label. A relation at its end has the names of the chain in
its path and hangs off the level, directly or by its link table. The tables of the plan are those of its
entities and of its links, so the value objects have none. -/
theorem embedded_places {s : Schema} {name : String} {p : Plan} (built : Plan.build s name = .ok p) :
    (∃ root, p.root = some root ∧
      p.aliases.map (·.path) = root.head.tables ++ root.members.tables) ∧
    ∃ asked, Nonempty (Derivation s name p asked) ∧ p.select = offerAll [] asked ∧
      ∀ e ∈ p.entities, ∃ layout, s.layout e.head.declared = .ok layout ∧
        e.head.levels = (placedLevels e.head.path layout).map (levelPlan layout.declared.idFields) ∧
        ∀ level ∈ placedLevels e.head.path layout, ∀ chain inner,
          s.Embeds level.level.fields chain inner →
          (∀ f ∈ inner, f.isSingle = true → f.transient = false → f.id = false →
            p.ColumnAt e asked level.path (chain.map (·.1)) f) ∧
          ∀ f ∈ inner, f.isRelation = true → f.transient = false →
            ∃ x ∈ e.sites, x.chain = chain ∧ x.field = f ∧ p.HangsAt x level.path (p.relationBase e) := by
  obtain ⟨asked, ⟨derivation⟩⟩ := derivation_of_build built
  refine ⟨?_, asked, ⟨derivation⟩, derivation.select_eq, fun e he => ?_⟩
  · obtain ⟨_, layout, members, d, -, -, derived, rfl⟩ := derivation
    exact ⟨_, rfl, (tables_entityHead _ layout none 0).symm ▸ derived.paths_eq⟩
  have stands := derivation.stands he
  generalize p.relationBase e = base at stands ⊢
  cases stands with
  | @intro _ target layout path _ walking attachment d₁ d₂ members asked₁ describes lays walk part kept =>
    refine ⟨layout, layout_declared describes lays, rfl, fun level hl chain inner embeds => ?_⟩
    cases walk with
    | @entity _ _ _ _ _ _ d₃ _ _ asked₂ _ _ walk late =>
      obtain ⟨d₄, here, asked₃, d₅, fields, inside⟩ := walk.exists_level hl
      have whole : Stage.PartOf ⟨[], members, asked₂, d₃⟩ ⟨[], members, asked, derivation.draft⟩ :=
        ⟨List.Subset.refl _, List.Subset.refl _, (List.suffix_append _ _).isInfix.trans part,
          (Draft.Keeps.late late).trans kept⟩
      let scope := levelScope path base layout.declared.idFields (walking ++ [layout.declared.name]) level
      have bare : scope.Within [] := .level ⟨path, base, layout.declared.idFields, _⟩ level
      have within : (scope.along chain).Within (chain.map (·.1)) := bare.along
      have at_level : (scope.along chain).levelAlias = level.path := scope.along_levelAlias chain
      constructor
      · intro f hf single stored no_id
        obtain ⟨d₆, m, asked₄, d₇, field, deeper⟩ := fields.exists_along embeds hf stored []
        rw [← at_level]
        exact derivation.columnAt he within single no_id field (deeper.trans (inside.trans whole))
          (List.Subset.refl _)
      · intro f hf relation stored
        obtain ⟨d₆, m, asked₄, d₇, field, deeper⟩ := fields.exists_along embeds hf stored []
        rw [← at_level]
        exact derivation.hangsAt built within (scope.along_relationBase chain) relation field
          (deeper.trans (inside.trans whole)) (List.Subset.refl _)

/-- Persons with data that hold an address, whose columns begin in a way of their own; the address is in a
country. -/
def residents : Schema where
  sources := [⟨.runtime, [
    { name := "Person", table := some ⟨none, "person"⟩,
      fields := [
        { name := "id", type := .value .bigInt, attrs := { id := some true } },
        { name := "personal", type := .named "Personal" }] },
    { name := "Personal", embeddable := true,
      fields := [
        { name := "email", type := .value .text },
        { name := "home", type := .named "Address", attrs := { columnPrefix := some "at_" } }] },
    { name := "Address", embeddable := true,
      fields := [
        { name := "city", type := .value .text },
        { name := "country", type := .named "Country" }] },
    { name := "Country", table := some ⟨none, "country"⟩,
      fields := [{ name := "code", type := .value .text, attrs := { id := some true } }] }]⟩]

/-- The city of a person is the column `personal_at_city` of the person, and the country hangs off the
person. -/
theorem embedded_places_residents : ∃ p e asked personal home city x,
    Plan.build residents "Person" = .ok p ∧ e ∈ p.entities ∧
    p.ColumnAt e asked "person" [personal, home] city ∧ city.sql = none ∧
    "person" ++ nameSuffix [personal, home, city] = "person.personal.home.city" ∧
    chainPrefix [personal, home] ++ city.column = "personal_at_city" ∧
    x ∈ e.sites ∧ x.chain.map (·.1) = [personal, home] ∧ x.field.name = "country" ∧
    p.HangsAt x "person" "" ∧ x.child.path = "personal.home.country" := by
  obtain ⟨⟨t, l, outer, inner, p⟩, run, shown⟩ := ok_of_map
    (x := do
      let t ← residents.describe "Person"
      let l ← residents.layout t
      let outer ← residents.describe "Personal"
      let inner ← residents.describe "Address"
      let p ← Plan.build residents "Person"
      return (t, l, outer, inner, p))
    (f := fun (t, l, outer, inner, p) => [
      p.entities.head?.any fun e =>
        e.head.path == "person" && e.head.declared == t && p.relationBase e == "",
      l.main.fields.any fun f => f.name == "personal" && !f.transient &&
        f.cls == .embedded "Personal" && f.embedPrefix == "personal_",
      outer.allFields.any fun f => f.name == "home" && !f.transient &&
        f.cls == .embedded "Address" && f.embedPrefix == "at_",
      inner.allFields.any fun f => f.name == "city" && !f.transient && f.isSingle && !f.id &&
        f.sql == none && f.column == "city",
      inner.allFields.any fun f => f.name == "country" && !f.transient && f.isRelation])
    (b := [true, true, true, true, true]) (by decide +kernel)
  obtain ⟨_, described, run⟩ := ok_bind.mp run
  obtain ⟨_, lays, run⟩ := ok_bind.mp run
  obtain ⟨_, outer_described, run⟩ := ok_bind.mp run
  obtain ⟨_, inner_described, run⟩ := ok_bind.mp run
  obtain ⟨_, built, run⟩ := ok_bind.mp run
  cases run
  simp only [List.cons.injEq, and_true, Option.any_eq_true, List.any_eq_true, Bool.and_eq_true,
    beq_iff_eq, Bool.not_eq_true'] at shown
  obtain ⟨⟨e, first, ⟨path, rfl⟩, base⟩,
    ⟨personal, personal_mem, ⟨⟨personal_name, personal_stored⟩, personal_cls⟩, personal_prefix⟩,
    ⟨home, home_mem, ⟨⟨home_name, home_stored⟩, home_cls⟩, home_prefix⟩,
    ⟨city, city_mem, ⟨⟨⟨⟨city_name, city_stored⟩, city_single⟩, city_id⟩, city_sql⟩, city_column⟩,
    ⟨country, country_mem, ⟨country_name, country_stored⟩, country_relation⟩⟩ := shown
  have he : e ∈ p.entities := List.mem_of_head? first
  obtain ⟨-, asked, -, -, places⟩ := embedded_places built
  obtain ⟨layout, lays', -, along⟩ := places e he
  cases lays.symm.trans lays'
  have main : (⟨l.main, .ancestor, e.head.path⟩ : PlacedLevel) ∈ placedLevels e.head.path l :=
    List.mem_append_right _ List.mem_cons_self
  have embeds : residents.Embeds l.main.fields [(personal, outer), (home, inner)] inner.allFields :=
    .inside personal_mem personal_stored personal_cls outer_described
      (.inside home_mem home_stored home_cls inner_described .here)
  obtain ⟨columns, relations⟩ := along _ main _ _ embeds
  have column := columns city city_mem city_single city_stored city_id
  obtain ⟨x, hx, chain, field, hangs⟩ := relations country country_mem country_relation country_stored
  rw [path] at column hangs
  rw [base] at hangs
  have names : x.path = ["personal", "home", "country"] := by
    rw [Site.path, chain, field, country_name]
    simp [personal_name, home_name]
  refine ⟨p, e, asked, personal, home, city, x, built, he, column, city_sql, ?_, ?_, hx, ?_, ?_, hangs, ?_⟩
  · simp [nameSuffix, personal_name, home_name, city_name]
  · simp [chainPrefix, personal_prefix, home_prefix, city_column]
  · rw [chain]
    rfl
  · rw [field, country_name]
  · rw [hangs.path, names]
    decide

/-- A parcel is at home in a region, which is not stored, and at a depot without a name, which a person
keeps. -/
def parcels : Schema where
  sources := [⟨.runtime, [
    { name := "Parcel", table := some ⟨none, "parcel"⟩,
      fields := [
        { name := "id", type := .value .int, attrs := { id := some true } },
        { name := "home", type := .named "Address" },
        { name := "", type := .named "Depot" }] },
    { name := "Address", embeddable := true,
      fields := [
        { name := "street", type := .value .text },
        { name := "region", type := .named "Region", attrs := { transient := some true } }] },
    { name := "Depot", embeddable := true,
      fields := [{ name := "keeper", type := .named "Person" }] },
    { name := "Region", table := some ⟨none, "region"⟩,
      fields := [{ name := "code", type := .value .text, attrs := { id := some true } }] },
    { name := "Person", table := some ⟨none, "person"⟩,
      fields := [{ name := "id", type := .value .int, attrs := { id := some true } }] }]⟩]

/-- **Not every relation of a value object is below the dotted names that lead to it.** One that is not
stored has no table at all, and below the root the empty name of an embedded field leaves no point. -/
theorem embedded_relations_parcels : ∃ p root layout home address region blank depot keeper,
    Plan.build parcels "Parcel" = .ok p ∧ p.root = some root ∧
    parcels.layout root.head.declared = .ok layout ∧ p.relationBase root = "" ∧
    p.aliases.map (·.path) = ["parcel", "keeper"] ∧
    (home ∈ layout.main.fields ∧ home.cls = .embedded "Address" ∧ home.transient = false ∧
      parcels.describe "Address" = .ok address ∧ region ∈ address.allFields ∧
      region.isRelation = true ∧ dottedPath "" [home, region] = "home.region") ∧
    (blank ∈ layout.main.fields ∧ blank.cls = .embedded "Depot" ∧ blank.transient = false ∧
      parcels.describe "Depot" = .ok depot ∧ keeper ∈ depot.allFields ∧ keeper.isRelation = true ∧
      keeper.transient = false ∧ dottedPath "" [blank, keeper] = ".keeper") ∧
    "home.region" ∉ p.aliases.map (·.path) ∧ ".keeper" ∉ p.aliases.map (·.path) := by
  obtain ⟨⟨t, l, address, depot, p⟩, run, shown⟩ := ok_of_map
    (x := do
      let t ← parcels.describe "Parcel"
      let l ← parcels.layout t
      let address ← parcels.describe "Address"
      let depot ← parcels.describe "Depot"
      let p ← Plan.build parcels "Parcel"
      return (t, l, address, depot, p))
    (f := fun (t, l, address, depot, p) => [
      p.root.any fun e => e.head.declared == t && p.relationBase e == "",
      p.aliases.map (·.path) == ["parcel", "keeper"],
      l.main.fields.any fun f => f.name == "home" && !f.transient && f.cls == .embedded "Address",
      address.allFields.any fun f => f.name == "region" && f.isRelation,
      l.main.fields.any fun f => f.name == "" && !f.transient && f.cls == .embedded "Depot",
      depot.allFields.any fun f => f.name == "keeper" && !f.transient && f.isRelation])
    (b := [true, true, true, true, true, true]) (by decide +kernel)
  obtain ⟨_, described, run⟩ := ok_bind.mp run
  obtain ⟨_, lays, run⟩ := ok_bind.mp run
  obtain ⟨_, address_described, run⟩ := ok_bind.mp run
  obtain ⟨_, depot_described, run⟩ := ok_bind.mp run
  obtain ⟨_, built, run⟩ := ok_bind.mp run
  cases run
  simp only [List.cons.injEq, and_true, Option.any_eq_true, List.any_eq_true, Bool.and_eq_true,
    beq_iff_eq, Bool.not_eq_true'] at shown
  obtain ⟨⟨root, has_root, rfl, base⟩, paths,
    ⟨home, home_mem, ⟨home_name, home_stored⟩, home_cls⟩, ⟨region, region_mem, region_name, relation⟩,
    ⟨blank, blank_mem, ⟨blank_name, blank_stored⟩, blank_cls⟩,
    ⟨keeper, keeper_mem, ⟨keeper_name, keeper_stored⟩, relation'⟩⟩ := shown
  refine ⟨p, root, l, home, address, region, blank, depot, keeper, built, has_root, lays, base, paths,
    ⟨home_mem, home_cls, home_stored, address_described, region_mem, relation, ?_⟩,
    ⟨blank_mem, blank_cls, blank_stored, depot_described, keeper_mem, relation', keeper_stored, ?_⟩,
    ?_, ?_⟩
  · simp [dottedPath, nameSuffix, home_name, region_name]
  · simp [dottedPath, nameSuffix, blank_name, keeper_name]
  · rw [paths]
    decide
  · rw [paths]
    decide

end Plan

end Orm
