import Mathlib.Data.List.Infix
import Orm.Proofs.Plan.JoinOrder
import Orm.Proofs.Plan.Sites

/-!
# `Proofs.Plan.Limits` — the tables of entities and what limits their rows

Every entity of a plan has a table of its own, the one of its main level. The table of the root is not
joined, so that the limit on its rows is one of the plan; every other table carries its limit in its
join. Both are set when the table is added, from the layout of the entity's type, and nothing that is
walked later changes them.

## Contents
- **Keeping.** `Draft.Keeps` with one lemma for each step of the walk, `Derives.keeps`.
- **Tables of entities.** `Derives.hosts`, `Derives.forall_entities`, `Derives.hosted`.
- **Limits.** `Plan.limitOf`, `entityRestriction_of_layout`, `Entity.Hosted`, `hosted_of_build`.
-/

namespace Orm.Plan

open Sql Schema

/-! ## Keeping -/

/-- A draft has the tables of another, which may have got columns, and its limit. -/
structure Draft.Keeps (d d' : Draft) : Prop where
  tables : ∀ a ∈ d.aliases, ∃ b ∈ d'.aliases, b.path = a.path ∧ b.role = a.role ∧ b.join = a.join
  restriction : d'.restriction = d.restriction

namespace Draft.Keeps

variable {d d₁ d' : Draft}

/-- A step that adds no table and no column keeps everything. -/
theorem of_eq (aliases : d'.aliases = d.aliases) (restriction : d'.restriction = d.restriction) :
    d.Keeps d' :=
  ⟨fun a ha => ⟨a, aliases ▸ ha, rfl, rfl, rfl⟩, restriction⟩

theorem trans (first : d.Keeps d₁) (rest : d₁.Keeps d') : d.Keeps d' := by
  refine ⟨fun a ha => ?_, rest.restriction.trans first.restriction⟩
  obtain ⟨b, hb, path, role, join⟩ := first.tables a ha
  obtain ⟨c, hc, path', role', join'⟩ := rest.tables b hb
  exact ⟨c, hc, path'.trans path, role'.trans role, join'.trans join⟩

theorem registering (d : Draft) (path fieldPath column : String) :
    d.Keeps (d.registering path fieldPath column) := by
  refine ⟨fun a ha => ⟨_, List.mem_map_of_mem ha, ?_⟩, rfl⟩
  unfold Alias.withColumn
  split_ifs <;> exact ⟨rfl, rfl, rfl⟩

theorem withAliases (d : Draft) (as : List Alias) : d.Keeps (d.withAliases as) :=
  ⟨fun a ha => ⟨a, List.mem_append_left _ ha, rfl, rfl, rfl⟩, rfl⟩

theorem withKeys (path : String) (ids : List FieldModel) (d : Draft) :
    d.Keeps (d.withKeys path ids) := by
  induction ids generalizing d with
  | nil => exact of_eq rfl rfl
  | cons id rest ih =>
    have selected : d.Keeps (d.selecting (.column ⟨path, id.column⟩) (path ++ "." ++ id.name)) :=
      of_eq rfl rfl
    exact selected.trans ((registering _ path id.name id.column).trans (ih _))

theorem opened (d : Draft) (path : String) (layout : Layout) (at_ : Attachment) :
    d.Keeps (d.opened path layout (some at_)) :=
  (withAliases d (entityAliases path layout (some at_))).trans (of_eq rfl rfl)

theorem linked {scope : Scope} {f : FieldModel} (h : Linked scope f d d') : d.Keeps d' := by
  unfold Linked at h
  split at h
  next =>
    obtain ⟨a, -, -, rfl⟩ := h
    exact withAliases d [a]
  next =>
    rw [h]
    exact of_eq rfl rfl

theorem late {path : String} {layers : List TypeLayer} {u : Unit}
    (h : Yields (addLate path layers) d u d') : d.Keeps d' := by
  obtain ⟨joins, groups, rfl⟩ := late_of_addLate h
  exact of_eq rfl rfl

end Draft.Keeps

/-- A part of the walk is not the walk of the root. -/
def Task.IsBelow : Task → Prop
  | .entity _ _ _ _ attachment => attachment.isSome = true
  | _ => True

/-- **What is walked below the root leaves the tables and the limit as they are.** -/
theorem Derives.keeps {s : Schema} {t : Task} {d d' : Draft} {m : Members} {asked : List SelectItem}
    (h : Derives s t d m asked d') (below : t.IsBelow) : d.Keeps d' := by
  induction h with
  | key => exact .of_eq rfl rfl
  | column => exact (Draft.Keeps.registering _ _ _ _).trans (.of_eq rfl rfl)
  | computed => exact .of_eq rfl rfl
  | embedded _ _ _ _ ih => exact ih trivial
  | relation _ _ _ _ linked _ _ ih => exact (Draft.Keeps.linked linked).trans (ih rfl)
  | done => exact .of_eq rfl rfl
  | skip _ _ ih => exact ih trivial
  | next _ _ _ first rest => exact (first trivial).trans (rest trivial)
  | bottom => exact .of_eq rfl rfl
  | level _ _ first rest =>
    exact (Draft.Keeps.withKeys _ _ _).trans ((first trivial).trans (rest trivial))
  | entity _ _ _ late ih =>
    obtain ⟨at_, rfl⟩ := Option.isSome_iff_exists.mp below
    exact (Draft.Keeps.opened _ _ _ at_).trans ((ih trivial).trans (.late late))

/-! ## Tables of entities -/

section

variable {s : Schema}

/-- **An entity has a table**, which is joined as it is attached and limited as it is laid out. Without
an attachment the limit is that of the draft. -/
theorem Derives.hosts {path relationBase : String} {walking : List String} {layout : Layout}
    {attachment : Option Attachment} {d d' : Draft} {m : Members} {asked : List SelectItem}
    (h : Derives s (.entity path relationBase walking layout attachment) d m asked d') :
    (∃ a ∈ d'.aliases, a.path = path ∧ a.role = .entity layout.declared ∧
      a.join = attachment.map fun at_ =>
        { at_.join with restriction := entityRestriction path layout }) ∧
    (attachment = none → d'.restriction = entityRestriction path layout) := by
  cases h with
  | entity _ _ walk late =>
    have kept := (walk.keeps trivial).trans (.late late)
    constructor
    · exact kept.tables (entityAlias path layout attachment)
        (List.mem_append_right d.aliases List.mem_cons_self)
    · rintro rfl
      exact kept.restriction

/-- **What holds of the children of relations when they are walked holds of all entities below**, if it is
kept while more is asked for and the tables stay. -/
theorem Derives.forall_entities {P : List SelectItem → Draft → EntityHead × Members → Prop}
    (child : ∀ {name target layout path walking at_ d d' members asked}, s.describe name = .ok target →
      s.layout target = .ok layout →
      Derives s (.entity path path walking layout (some at_)) d members asked d' →
      P asked d' (entityHead path layout d.entityCount, members))
    (kept : ∀ {asked more d d' x}, asked <:+: more → d.Keeps d' → P asked d x → P more d' x)
    {t : Task} {d d' : Draft} {m : Members} {asked : List SelectItem} (h : Derives s t d m asked d') :
    ∀ x ∈ m.entities, P asked d' x := by
  induction h with
  | key => exact fun _ hx => absurd hx List.not_mem_nil
  | column => exact fun _ hx => absurd hx List.not_mem_nil
  | computed => exact fun _ hx => absurd hx List.not_mem_nil
  | embedded _ _ _ _ ih =>
    intro x hx
    rw [Members.entities_embedded] at hx
    exact ih x hx
  | relation _ describes _ lays _ _ walk ih =>
    intro x hx
    rw [Members.entities_relation] at hx
    rcases List.mem_cons.mp hx with rfl | below
    · exact child describes lays walk
    · exact ih x below
  | done => exact fun _ hx => absurd hx List.not_mem_nil
  | skip _ _ ih => exact ih
  | next _ _ rest first later =>
    intro x hx
    rw [Members.entities_append] at hx
    rcases List.mem_append.mp hx with here | there
    · exact kept (List.prefix_append _ _).isInfix (rest.keeps trivial) (first x here)
    · exact kept (List.suffix_append _ _).isInfix (.of_eq rfl rfl) (later x there)
  | bottom => exact fun _ hx => absurd hx List.not_mem_nil
  | level _ rest first later =>
    intro x hx
    rw [Members.entities_append] at hx
    rcases List.mem_append.mp hx with here | there
    · exact kept ((List.prefix_append _ _).isInfix.trans (List.suffix_append _ _).isInfix)
        (rest.keeps trivial) (first x here)
    · exact kept ((List.suffix_append _ _).isInfix.trans (List.suffix_append _ _).isInfix)
        (.of_eq rfl rfl) (later x there)
  | entity _ _ _ late ih =>
    exact fun x hx => kept (List.suffix_append _ _).isInfix (.late late) (ih x hx)

/-- **The entities below have tables**, joined and limited as they are laid out. -/
theorem Derives.hosted {t : Task} {d d' : Draft} {m : Members} {asked : List SelectItem}
    (h : Derives s t d m asked d') : ∀ x ∈ m.entities, ∃ layout,
      s.layout x.1.declared = .ok layout ∧ ∃ a ∈ d'.aliases, a.path = x.1.path ∧
        a.role = .entity x.1.declared ∧
        ∃ j, a.join = some j ∧ j.restriction = entityRestriction x.1.path layout := by
  refine h.forall_entities (P := fun _ d x => ∃ layout, s.layout x.1.declared = .ok layout ∧
    ∃ a ∈ d.aliases, a.path = x.1.path ∧ a.role = .entity x.1.declared ∧
      ∃ j, a.join = some j ∧ j.restriction = entityRestriction x.1.path layout) ?_ ?_
  · intro name target layout path walking at_ d d' members asked describes lays walk
    obtain ⟨⟨a, ha, path, role, join⟩, -⟩ := walk.hosts
    exact ⟨_, layout_declared describes lays, a, ha, path, role, _, join, rfl⟩
  · -- the table of an entity stays while its siblings are walked
    rintro asked more d d' x - keeps ⟨layout, lays, a, ha, path, role, join⟩
    obtain ⟨b, hb, path', role', join'⟩ := keeps.tables a ha
    exact ⟨layout, lays, b, hb, path'.trans path, role'.trans role, join' ▸ join⟩

end

end Orm.Plan

namespace Orm

open Plan Schema

/-! ## Limits -/

/-- The limit on the rows of a table: that of its join, or of the plan for the one that is not joined. -/
def Plan.limitOf (p : Plan) (a : Alias) : Option Restriction :=
  match a.join with
  | some j => j.restriction
  | none => p.restriction

/-- The rows of a type in a discriminated hierarchy are limited to its own and those of its
descendants, unless it is the base. -/
theorem entityRestriction_of_layout {s : Schema} {type base : TypeModel} {layout : Layout}
    (lays : s.layout type = .ok layout)
    (based : type.lineage.find? (·.discriminator.isSome) = some base) (path : String) :
    ∃ below, s.descendants type = .ok below ∧ entityRestriction path layout =
      if base.name = type.name then none
      else some ⟨⟨path, base.discriminator.getD ""⟩, (type :: below).map (·.registeredName)⟩ := by
  cases laid_of_layout lays with
  | @discriminated base' below _ home based' descend =>
    cases based.symm.trans based'
    refine ⟨below, descend, ?_⟩
    by_cases same : base.name = type.name <;> simp [entityRestriction, discriminationOf, same]
  | vertical alone => cases based.symm.trans alone

/-- A table of a plan is that of an entity, and its rows are limited as the type of the entity is laid
out. Only the table of the root is not joined. -/
structure Plan.Entity.Hosted (s : Schema) (p : Plan) (e : Entity) (layout : Layout) (a : Alias) :
    Prop where
  lays : s.layout e.head.declared = .ok layout
  found : p.find? e.head.path = some a
  role : a.role = .entity e.head.declared
  root : a.join = none ↔ p.root = some e
  limit : p.limitOf a = entityRestriction e.head.path layout

/-- **Every entity of a plan has a table, and its rows are limited as its type is laid out.** -/
theorem hosted_of_build {s : Schema} {name : String} {p : Plan} (built : Plan.build s name = .ok p)
    {e : Entity} (he : e ∈ p.entities) : ∃ layout a, e.Hosted s p layout a := by
  have unique := find?_of_build built
  obtain ⟨asked, ⟨declared, layout, members, d, described, lays, derived, rfl⟩⟩ :=
    derivation_of_build built
  obtain ⟨⟨top, placed, path, role, join⟩, restriction⟩ := derived.hosts
  have found := unique top placed
  rw [path] at found
  rcases List.mem_cons.mp he with rfl | below
  · refine ⟨layout, top, ?_⟩
    constructor
    case lays => exact layout_declared described lays
    case found => exact found
    case role => exact role
    case root => exact iff_of_true join rfl
    case limit =>
      unfold Plan.limitOf
      rw [join]
      exact restriction rfl
  · obtain ⟨x, hx, rfl⟩ := List.mem_map.mp below
    obtain ⟨layout', lays', a, ha, path', role', j, joined, limited⟩ := derived.hosted x hx
    have found' := unique a ha
    rw [path'] at found'
    refine ⟨layout', a, ?_⟩
    constructor
    case lays => exact lays'
    case found => exact found'
    case role => exact role'
    case root =>
      refine iff_of_false (fun none => nomatch none.symm.trans joined) fun root => ?_
      -- the table of the root is another one, as it is not joined
      have same : layout.main.table.name = x.1.path :=
        congrArg (fun e : Entity => e.head.path) (Option.some.inj root)
      rw [← same, found] at found'
      cases found'
      cases join.symm.trans joined
    case limit =>
      unfold Plan.limitOf
      rw [joined]
      exact limited

end Orm
