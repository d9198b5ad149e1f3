import Orm.Plan.Walk
import Orm.Proofs.Outcome

/-!
# `Proofs.Plan.Derivation` — a successful walk as a derivation

`Plan.build` succeeds by a run of the walk. This module takes such a run apart once: `Derives` has one
rule for each thing that a step of the walk can do, with the guards it has passed, the entries of the
select list that it asks for and the draft it leaves, and `derivation_of_build` turns every plan into a derivation. What later modules prove of plans
they prove by induction on derivations, and no monad is opened again.

## Contents
- **Runs.** `Yields` and its inversion for the operations of the monad.
- **Drafts.** The steps of the walk as functions on drafts: `selecting`, `registering`, `grouping`,
  `withKeys`, `withAliases`, `opened`.
- **Derivations.** `Task`, `Derives`.
- **From runs to derivations.** `derives_field`, `Derivation`, `derivation_of_build`.
- **Growth.** `Draft.Grows`, `Derives.grows`: a derivation only adds to its draft.
- **Entities.** `Entity.Walked`: each entity of a plan has a derivation of its own.
-/

namespace Orm.Schema

/-- Whether a field holds a single value. -/
def FieldModel.isSingle (f : FieldModel) : Bool :=
  !f.isRelation && !f.isEmbedded

end Orm.Schema

namespace Orm.Plan

open Sql Schema

/-! ## Runs -/

/-- From a draft, a step of the walk succeeds with a result and another draft. -/
def Yields {α : Type} (x : Walk α) (d : Draft) (a : α) (d' : Draft) : Prop :=
  x.run d = .ok (a, d')

section

variable {α β : Type} {d d' : Draft}

theorem yields_pure {a b : α} : Yields (pure a) d b d' ↔ b = a ∧ d' = d := by
  show (Except.ok (a, d) : Except Error _) = .ok (b, d') ↔ _
  rw [Except.ok.injEq, Prod.mk.injEq]
  exact ⟨fun h => ⟨h.1.symm, h.2.symm⟩, fun h => ⟨h.1.symm, h.2.symm⟩⟩

/-- Two steps succeed when the first does and the second does after it. -/
theorem yields_bind {x : Walk α} {f : α → Walk β} {b : β} :
    Yields (x >>= f) d b d' ↔ ∃ a d₁, Yields x d a d₁ ∧ Yields (f a) d₁ b d' := by
  unfold Yields
  rw [StateT.run_bind, ok_bind]
  exact ⟨fun ⟨r, hx, hf⟩ => ⟨r.1, r.2, hx, hf⟩, fun ⟨a, d₁, hx, hf⟩ => ⟨(a, d₁), hx, hf⟩⟩

theorem yields_map {x : Walk α} {f : α → β} {b : β} :
    Yields (f <$> x) d b d' ↔ ∃ a, Yields x d a d' ∧ b = f a := by
  rw [map_eq_pure_bind, yields_bind]
  constructor
  · rintro ⟨a, d₁, hx, hp⟩
    obtain ⟨rfl, rfl⟩ := yields_pure.mp hp
    exact ⟨a, hx, rfl⟩
  · rintro ⟨a, hx, rfl⟩
    exact ⟨a, d', hx, yields_pure.mpr ⟨rfl, rfl⟩⟩

theorem not_yields_throw {e : Error} {a : α} : ¬ Yields (throw e) d a d' := nofun

theorem yields_modify {f : Draft → Draft} {u : Unit} :
    Yields (modify f) d u d' ↔ d' = f d := by
  show (Except.ok ((), f d) : Except Error _) = .ok (u, d') ↔ _
  rw [Except.ok.injEq, Prod.mk.injEq]
  exact ⟨fun h => h.2.symm, fun h => ⟨rfl, h.symm⟩⟩

/-- A computation without a draft leaves the draft as it is. -/
theorem yields_lift {x : Except Error α} {a : α} :
    Yields (liftM x) d a d' ↔ x = .ok a ∧ d' = d := by
  unfold Yields
  cases x with
  | error e => exact ⟨nofun, fun h => nomatch h.1⟩
  | ok b =>
    show (Except.ok (b, d) : Except Error _) = .ok (a, d') ↔ _
    rw [Except.ok.injEq, Except.ok.injEq, Prod.mk.injEq]
    exact ⟨fun h => ⟨h.1, h.2.symm⟩, fun h => ⟨h.1, h.2.symm⟩⟩

/-- What comes after a guard is only reached where the guard fails to fire. -/
theorem yields_guard {c : Prop} [Decidable c] {e : Error} {x : Walk α} {a : α} :
    Yields (if c then throw e else x) d a d' ↔ ¬ c ∧ Yields x d a d' := by
  by_cases hc : c
  · rw [if_pos hc]
    exact ⟨fun h => (not_yields_throw h).elim, fun h => (h.1 hc).elim⟩
  · rw [if_neg hc]
    exact ⟨fun h => ⟨hc, h⟩, fun h => h.2⟩

end

/-! ## Drafts -/

/-- A select list with one more entry, unless the label is taken. -/
def offer (items : List SelectItem) (e : Expression) (label : String) : List SelectItem :=
  if items.any (·.label == label) then items else items ++ [⟨e, label⟩]

namespace Draft

-- Each step is an update of the fields that it may change, so the other fields of its result are
-- those of the draft by definition.

variable (d : Draft)

/-- The paths of the tables so far. -/
def paths : List String := d.aliases.map (·.path)

/-- The labels taken so far. -/
def labels : List String := d.select.map (·.label)

/-- With an entry of the select list, unless its label is taken. -/
def selecting (e : Expression) (label : String) : Draft :=
  { d with select := offer d.select e label }

/-- With a column of a field stored in a table. -/
def registering (path fieldPath column : String) : Draft :=
  { d with
    aliases := d.aliases.map fun a => if a.path == path then a.withColumn fieldPath column else a }

/-- With a grouping term, if there is to be one. -/
def grouping (wanted : Bool) (e : Expression) : Draft :=
  { d with groupBy := if wanted then d.groupBy ++ [e] else d.groupBy }

/-- With the key of a level. -/
def withKeys (path : String) : List FieldModel → Draft → Draft
  | [], d => d
  | id :: rest, d =>
    withKeys path rest
      ((d.selecting (.column ⟨path, id.column⟩) (path ++ "." ++ id.name)).registering path id.name
        id.column)

/-- With more tables. -/
def withAliases (as : List Alias) : Draft :=
  { d with aliases := d.aliases ++ as }

/-- None of some tables is there already, and no two of them have one path. -/
def HasRoom (as : List Alias) : Prop :=
  (as.map (·.path)).Nodup ∧ ∀ a ∈ as, a.path ∉ d.paths

/-- With the limit on the rows of an entity, if it is the root. -/
def limiting (path : String) (layout : Layout) (attachment : Option Attachment) : Draft :=
  { d with
    restriction := if attachment.isNone then entityRestriction path layout else d.restriction }

/-- With the discriminator column of an entity, if it has one. -/
def discriminating (path : String) (layout : Layout) : Draft :=
  { d with
    select := match layout.discrimination with
      | none => d.select
      | some dis => offer d.select (.column ⟨path, dis.column⟩) (path ++ "." ++ dis.column) }

/-- With one more entity counted. -/
def counting : Draft :=
  { d with entityCount := d.entityCount + 1 }

end Draft

/-- The tables of an entity: that of the main level and then those of the others. -/
def entityAliases (path : String) (layout : Layout) (attachment : Option Attachment) : List Alias :=
  entityAlias path layout attachment ::
    (sideLevels path layout).map (levelAlias path layout.declared.idFields attachment.isNone)

/-- With an entity whose fields are still to be walked. -/
def Draft.opened (d : Draft) (path : String) (layout : Layout) (attachment : Option Attachment) :
    Draft :=
  (((d.limiting path layout attachment).withAliases (entityAliases path layout attachment))
    |>.discriminating path layout).counting

/-- How the type of a row of an entity is told, if it is discriminated. -/
def discriminatorPlan (path : String) (layout : Layout) : Option DiscriminatorPlan :=
  layout.discrimination.map fun dis => ⟨path ++ "." ++ dis.column, layout.declared, dis.candidates⟩

/-- The head of an entity at a position. -/
def entityHead (path : String) (layout : Layout) (index : Nat) : EntityHead where
  index := index
  path := path
  declared := layout.declared
  strategy := layout.strategy
  levels := (placedLevels path layout).map (levelPlan layout.declared.idFields)
  mainIndex := layout.mainIndex
  discriminator := discriminatorPlan path layout

/-! ### The operations of the walk are these functions -/

section

variable {d d' : Draft}

theorem yields_addSelect {e : Expression} {label : String} {u : Unit} :
    Yields (addSelect e label) d u d' ↔ d' = d.selecting e label := by
  unfold addSelect Draft.selecting offer
  rw [yields_modify]
  split <;> rfl

theorem yields_registerColumn {path fieldPath column : String} {u : Unit} :
    Yields (registerColumn path fieldPath column) d u d' ↔ d' = d.registering path fieldPath column :=
  yields_modify

theorem yields_addGroup {wanted : Bool} {e : Expression} {u : Unit} :
    Yields (addGroup wanted e) d u d' ↔ d' = d.grouping wanted e := by
  unfold addGroup Draft.grouping
  rw [yields_modify]
  split <;> rfl

theorem yields_addAlias {a : Alias} {u : Unit} :
    Yields (addAlias a) d u d' ↔ a.path ∉ d.paths ∧ d' = d.withAliases [a] := by
  have free : (d.aliases.any (·.path == a.path)) = true ↔ a.path ∈ d.paths := by
    rw [List.any_eq_true, Draft.paths, List.mem_map]
    exact exists_congr fun b => and_congr_right fun _ => beq_iff_eq
  show Yields (if d.aliases.any (·.path == a.path) then throw _ else set _) d u d' ↔ _
  rw [yields_guard, free]
  exact and_congr_right fun _ => yields_modify (f := fun d => d.withAliases [a])

theorem yields_addAliases {as : List Alias} {u : Unit} :
    Yields (addAliases as) d u d' ↔ d.HasRoom as ∧ d' = d.withAliases as := by
  induction as generalizing d with
  | nil =>
    rw [addAliases, yields_pure]
    simp [Draft.HasRoom, Draft.withAliases]
  | cons a rest ih =>
    rw [addAliases, yields_bind]
    constructor
    · rintro ⟨_, d₁, first, later⟩
      obtain ⟨free, rfl⟩ := yields_addAlias.mp first
      obtain ⟨⟨distinct, room⟩, rfl⟩ := ih.mp later
      have apart : ∀ b ∈ rest, b.path ≠ a.path ∧ b.path ∉ d.paths := fun b hb => by
        have := room b hb
        simp only [Draft.paths, Draft.withAliases, List.map_append, List.mem_append, not_or] at this
        exact ⟨by simpa using this.2, this.1⟩
      refine ⟨⟨List.nodup_cons.mpr ⟨?_, distinct⟩, ?_⟩, by simp [Draft.withAliases]⟩
      · intro h
        obtain ⟨b, hb, same⟩ := List.mem_map.mp h
        exact (apart b hb).1 same
      · intro b hb
        rcases List.mem_cons.mp hb with rfl | hb
        · exact free
        · exact (apart b hb).2
    · rintro ⟨⟨distinct, room⟩, rfl⟩
      have distinct := List.nodup_cons.mp distinct
      refine ⟨(), d.withAliases [a], yields_addAlias.mpr ⟨room a List.mem_cons_self, rfl⟩,
        ih.mpr ⟨⟨distinct.2, fun b hb => ?_⟩, by simp [Draft.withAliases]⟩⟩
      simp only [Draft.paths, Draft.withAliases, List.map_append, List.mem_append, not_or]
      refine ⟨room b (List.mem_cons_of_mem a hb), ?_⟩
      rintro h
      have same : b.path = a.path := by simpa using h
      exact distinct.1 (List.mem_map.mpr ⟨b, hb, same⟩)

theorem yields_walkKeys {path : String} {ids : List FieldModel} {u : Unit} :
    Yields (walkKeys path ids) d u d' ↔ d' = d.withKeys path ids := by
  induction ids generalizing d with
  | nil => rw [walkKeys, yields_pure]; exact ⟨fun h => h.2, fun h => ⟨rfl, h⟩⟩
  | cons id rest ih =>
    rw [walkKeys, yields_bind]
    constructor
    · rintro ⟨_, d₁, sel, more⟩
      obtain rfl := yields_addSelect.mp sel
      obtain ⟨_, d₂, reg, later⟩ := yields_bind.mp more
      obtain rfl := yields_registerColumn.mp reg
      exact ih.mp later
    · rintro rfl
      exact ⟨(), _, yields_addSelect.mpr rfl,
        yields_bind.mpr ⟨(), _, yields_registerColumn.mpr rfl, ih.mpr rfl⟩⟩

theorem yields_nextEntity {n : Nat} :
    Yields nextEntity d n d' ↔ n = d.entityCount ∧ d' = d.counting := by
  show (Except.ok (d.entityCount, d.counting) : Except Error _) = .ok (n, d') ↔ _
  rw [Except.ok.injEq, Prod.mk.injEq]
  exact ⟨fun h => ⟨h.1.symm, h.2.symm⟩, fun h => ⟨h.1.symm, h.2.symm⟩⟩

theorem yields_walkDiscriminator {path : String} {layout : Layout} {o : Option DiscriminatorPlan} :
    Yields (walkDiscriminator path layout) d o d' ↔
      o = discriminatorPlan path layout ∧ d' = d.discriminating path layout := by
  unfold walkDiscriminator discriminatorPlan Draft.discriminating
  cases layout.discrimination with
  | none => exact yields_pure
  | some dis =>
    show Yields (addSelect _ _ >>= fun _ => pure _) d o d' ↔ _
    rw [yields_bind]
    constructor
    · rintro ⟨_, d₁, sel, rest⟩
      obtain rfl := yields_addSelect.mp sel
      exact yields_pure.mp rest
    · rintro ⟨rfl, rfl⟩
      exact ⟨(), _, yields_addSelect.mpr rfl, yields_pure.mpr ⟨rfl, rfl⟩⟩

end

/-! ## Derivations -/

/-- Where the levels of an entity are walked. -/
structure Place where
  path : String
  relationBase : String
  ids : List FieldModel
  walking : List String

/-- The scope of the fields of a level. -/
def Place.scope (place : Place) (p : PlacedLevel) : Scope :=
  levelScope place.path place.relationBase place.ids place.walking p

/-- A part of the walk. -/
inductive Task where
  | field (scope : Scope) (f : FieldModel)
  | fields (scope : Scope) (fs : List FieldModel)
  | levels (place : Place) (ps : List PlacedLevel)
  | entity (path relationBase : String) (walking : List String) (layout : Layout)
      (attachment : Option Attachment)

/-- The path of the entity that a relation leads to. -/
def Scope.childPath (scope : Scope) (f : FieldModel) : String :=
  joinPath scope.relationBase f.name

/-- The link table of a relation is added, if it has one. -/
def Linked (scope : Scope) (f : FieldModel) (d d' : Draft) : Prop :=
  match relationKind f, f.link with
  | .toManyLinked, some link =>
    ∃ a, linkAlias scope f link (scope.childPath f) = .ok a ∧ a.path ∉ d.paths ∧
      d' = d.withAliases [a]
  | _, _ => d' = d

/-- The join of the entity that a relation leads to. -/
def relationJoin (scope : Scope) (f : FieldModel) (condition : Condition) : Join where
  parent := if relationKind f = .toManyLinked then linkPath (scope.childPath f) else scope.levelAlias
  type := .left
  condition := condition
  restriction := none

/-- The entries of the select list that the key of a level asks for. -/
def keyItems (path : String) (ids : List FieldModel) : List SelectItem :=
  ids.map fun id => ⟨.column ⟨path, id.column⟩, path ++ "." ++ id.name⟩

/-- The entry of the select list that an entity asks for to tell its types. -/
def discriminatorItems (path : String) (layout : Layout) : List SelectItem :=
  layout.discrimination.toList.map fun dis => ⟨.column ⟨path, dis.column⟩, path ++ "." ++ dis.column⟩

/-- A part of the walk succeeds from a draft, with members, the entries of the select list that it
asks for on its way, and another draft. One rule for each thing that a step can do. -/
inductive Derives (s : Schema) : Task → Draft → Members → List SelectItem → Draft → Prop where
  /-- A key field: its column was asked for with the level. -/
  | key {scope : Scope} {f : FieldModel} {d : Draft} (single : f.isSingle)
      (isKey : scope.isKey f) :
      Derives s (.field scope f) d (.column f (scope.label f) .nil) []
        (d.grouping f.groupBy (.column ⟨scope.levelAlias, f.column⟩))
  /-- A field with a column. -/
  | column {scope : Scope} {f : FieldModel} {d : Draft} (single : f.isSingle)
      (noKey : scope.isKey f = false) (noSql : f.sql = none) :
      Derives s (.field scope f) d (.column f (scope.label f) .nil)
        [⟨.column ⟨scope.levelAlias, scope.columnPrefix ++ f.column⟩, scope.label f⟩]
        (((d.registering scope.levelAlias (scope.fieldBase ++ f.name)
            (scope.columnPrefix ++ f.column)).grouping f.groupBy
            (.column ⟨scope.levelAlias, scope.columnPrefix ++ f.column⟩)).selecting
          (.column ⟨scope.levelAlias, scope.columnPrefix ++ f.column⟩) (scope.label f))
  /-- A field with an expression of its own. -/
  | computed {scope : Scope} {f : FieldModel} {d : Draft} {sql text : String}
      (single : f.isSingle) (hasSql : f.sql = some sql)
      (anchor : rebase [("this", scope.entityPath)] sql = .ok text) :
      Derives s (.field scope f) d (.column f (scope.label f) .nil)
        [⟨.raw text, scope.label f⟩]
        ((d.grouping f.groupBy (.raw text)).selecting (.raw text) (scope.label f))
  | embedded {scope : Scope} {f : FieldModel} {d d' : Draft} {name : String} {target : TypeModel}
      {inner : Members} {asked : List SelectItem} (cls : f.cls = .embedded name)
      (describes : s.describe name = .ok target) (fresh : target.name ∉ scope.walking)
      (walk : Derives s (.fields (scope.inside f target) target.allFields) d inner asked d') :
      Derives s (.field scope f) d (.embedded f target inner .nil) asked d'
  | relation {scope : Scope} {f : FieldModel} {d d₁ d' : Draft} {name : String}
      {target : TypeModel} {layout : Layout} {condition : Condition} {inner : Members}
      {asked : List SelectItem} (cls : f.cls = .relation name)
      (describes : s.describe name = .ok target) (fresh : target.name ∉ scope.walking)
      (lays : s.layout target = .ok layout) (linked : Linked scope f d d₁)
      (joined : relationCondition scope f target layout.main.table.name (scope.childPath f) =
        .ok condition)
      (walk : Derives s (.entity (scope.childPath f) (scope.childPath f) scope.walking layout
        (some ⟨f, relationKind f, relationJoin scope f condition⟩)) d₁ inner asked d') :
      Derives s (.field scope f) d
        (.relation f (relationKind f) (entityHead (scope.childPath f) layout d₁.entityCount) inner
          .nil) asked d'
  | done {scope : Scope} {d : Draft} : Derives s (.fields scope []) d .nil [] d
  | skip {scope : Scope} {f : FieldModel} {fs : List FieldModel} {d d' : Draft} {m : Members}
      {asked : List SelectItem} (transient : f.transient)
      (walk : Derives s (.fields scope fs) d m asked d') :
      Derives s (.fields scope (f :: fs)) d m asked d'
  | next {scope : Scope} {f : FieldModel} {fs : List FieldModel} {d d₁ d' : Draft}
      {here later : Members} {asked more : List SelectItem} (stored : f.transient = false)
      (first : Derives s (.field scope f) d here asked d₁)
      (rest : Derives s (.fields scope fs) d₁ later more d') :
      Derives s (.fields scope (f :: fs)) d (here ++ later) (asked ++ more) d'
  | bottom {place : Place} {d : Draft} : Derives s (.levels place []) d .nil [] d
  | level {place : Place} {p : PlacedLevel} {ps : List PlacedLevel} {d d₁ d' : Draft}
      {here later : Members} {asked more : List SelectItem}
      (first : Derives s (.fields (place.scope p) p.level.fields) (d.withKeys p.path place.ids) here
        asked d₁)
      (rest : Derives s (.levels place ps) d₁ later more d') :
      Derives s (.levels place (p :: ps)) d (here ++ later)
        (keyItems p.path place.ids ++ (asked ++ more)) d'
  | entity {path relationBase : String} {walking : List String} {layout : Layout}
      {attachment : Option Attachment} {d d₁ d' : Draft} {members : Members}
      {asked : List SelectItem}
      (keyed : ¬ (1 < (placedLevels path layout).length ∧ layout.declared.idFields.isEmpty))
      (room : d.HasRoom (entityAliases path layout attachment))
      (walk : Derives s
        (.levels ⟨path, relationBase, layout.declared.idFields, walking ++ [layout.declared.name]⟩
          (placedLevels path layout))
        (d.opened path layout attachment) members asked d₁)
      (late : Yields (addLate path layout.declared.layers) d₁ () d') :
      Derives s (.entity path relationBase walking layout attachment) d members
        (discriminatorItems path layout ++ asked) d'

/-! ## From runs to derivations -/

section

variable {s : Schema} {walk : Scope → FieldModel → Walk Members}

/-- Every success of a way to walk fields is a derivation. -/
def WalksSoundly (s : Schema) (walk : Scope → FieldModel → Walk Members) : Prop :=
  ∀ ⦃scope f d m d'⦄, Yields (walk scope f) d m d' →
    ∃ asked, Derives s (.field scope f) d m asked d'

theorem derives_column {scope : Scope} {f : FieldModel} {d d' : Draft} {m : Members}
    (single : f.isSingle) (h : Yields (walkColumn scope f) d m d') :
    ∃ asked, Derives s (.field scope f) d m asked d' := by
  unfold walkColumn at h
  by_cases hk : scope.isKey f
  · rw [if_pos hk] at h
    obtain ⟨_, d₁, grouped, result⟩ := yields_bind.mp h
    obtain rfl := yields_addGroup.mp grouped
    obtain ⟨rfl, rfl⟩ := yields_pure.mp result
    exact ⟨_, .key single hk⟩
  · rw [if_neg hk] at h
    obtain ⟨e, d₁, expressed, h⟩ := yields_bind.mp h
    obtain ⟨_, d₂, grouped, h⟩ := yields_bind.mp h
    obtain rfl := yields_addGroup.mp grouped
    obtain ⟨_, d₃, selected, result⟩ := yields_bind.mp h
    obtain rfl := yields_addSelect.mp selected
    obtain ⟨rfl, rfl⟩ := yields_pure.mp result
    unfold columnExpression at expressed
    cases hs : f.sql with
    | some sql =>
      rw [hs] at expressed
      obtain ⟨text, lifted, rfl⟩ := yields_map.mp expressed
      obtain ⟨anchor, rfl⟩ := yields_lift.mp lifted
      exact ⟨_, .computed single hs anchor⟩
    | none =>
      rw [hs] at expressed
      obtain ⟨_, d₂, registered, result⟩ := yields_bind.mp expressed
      obtain rfl := yields_registerColumn.mp registered
      obtain ⟨rfl, rfl⟩ := yields_pure.mp result
      exact ⟨_, .column single (Bool.eq_false_iff.mpr hk) hs⟩

theorem derives_fields (sound : WalksSoundly s walk) {scope : Scope} {fs : List FieldModel}
    {d d' : Draft} {m : Members} (h : Yields (walkFields (walk scope) fs) d m d') :
    ∃ asked, Derives s (.fields scope fs) d m asked d' := by
  induction fs generalizing d m with
  | nil =>
    obtain ⟨rfl, rfl⟩ := yields_pure.mp h
    exact ⟨_, .done⟩
  | cons f rest ih =>
    unfold walkFields at h
    by_cases ht : f.transient
    · rw [if_pos ht] at h
      obtain ⟨asked, walked⟩ := ih h
      exact ⟨asked, .skip ht walked⟩
    · rw [if_neg ht] at h
      obtain ⟨here, d₁, first, h⟩ := yields_bind.mp h
      obtain ⟨later, d₂, more, result⟩ := yields_bind.mp h
      obtain ⟨rfl, rfl⟩ := yields_pure.mp result
      obtain ⟨asked, walked⟩ := sound first
      obtain ⟨others, rest⟩ := ih more
      exact ⟨_, .next (Bool.eq_false_iff.mpr ht) walked rest⟩

theorem derives_levels (sound : WalksSoundly s walk) {place : Place} {ps : List PlacedLevel}
    {d d' : Draft} {m : Members} (h : Yields (walkLevels walk place.scope place.ids ps) d m d') :
    ∃ asked, Derives s (.levels place ps) d m asked d' := by
  induction ps generalizing d m with
  | nil =>
    obtain ⟨rfl, rfl⟩ := yields_pure.mp h
    exact ⟨_, .bottom⟩
  | cons p rest ih =>
    unfold walkLevels at h
    obtain ⟨_, d₁, keys, h⟩ := yields_bind.mp h
    obtain rfl := yields_walkKeys.mp keys
    obtain ⟨here, d₂, first, h⟩ := yields_bind.mp h
    obtain ⟨later, d₃, more, result⟩ := yields_bind.mp h
    obtain ⟨rfl, rfl⟩ := yields_pure.mp result
    obtain ⟨asked, walked⟩ := derives_fields sound first
    obtain ⟨others, rest⟩ := ih more
    exact ⟨_, .level walked rest⟩

/-- What follows the limit on the rows of the root. -/
theorem yields_limiting {α : Type} {path : String} {layout : Layout}
    {attachment : Option Attachment} {rest : Walk α} {d d' : Draft} {a : α}
    (h : Yields (if attachment.isNone = true then
      setRestriction (entityRestriction path layout) >>= fun _ => rest else rest) d a d') :
    Yields rest (d.limiting path layout attachment) a d' := by
  unfold Draft.limiting
  by_cases root : attachment.isNone = true
  · rw [if_pos root] at h ⊢
    obtain ⟨_, d₁, restricted, h⟩ := yields_bind.mp h
    obtain rfl := yields_modify.mp restricted
    exact h
  · rw [if_neg root] at h ⊢
    exact h

theorem derives_entity (sound : WalksSoundly s walk) {path relationBase : String}
    {walking : List String} {layout : Layout} {attachment : Option Attachment} {d d' : Draft}
    {e : Entity} (h : Yields (walkEntity walk path relationBase walking layout attachment) d e d') :
    e.head = entityHead path layout d.entityCount ∧
      ∃ asked, Derives s (.entity path relationBase walking layout attachment) d e.members asked
        d' := by
  unfold walkEntity at h
  obtain ⟨keyed, h⟩ := yields_guard.mp h
  have h := yields_limiting h
  obtain ⟨_, d₁, main, h⟩ := yields_bind.mp h
  obtain ⟨_, d₂, side, h⟩ := yields_bind.mp h
  obtain ⟨room, rfl⟩ : (d.limiting path layout attachment).HasRoom
      (entityAliases path layout attachment) ∧ d₂ = (d.limiting path layout attachment).withAliases
        (entityAliases path layout attachment) :=
    yields_addAliases.mp (yields_bind.mpr ⟨_, _, main, side⟩)
  obtain ⟨o, d₃, told, h⟩ := yields_bind.mp h
  obtain ⟨rfl, rfl⟩ := yields_walkDiscriminator.mp told
  obtain ⟨index, d₄, counted, h⟩ := yields_bind.mp h
  obtain ⟨rfl, rfl⟩ := yields_nextEntity.mp counted
  obtain ⟨members, d₅, walked, h⟩ := yields_bind.mp h
  obtain ⟨_, d₆, late, result⟩ := yields_bind.mp h
  obtain ⟨rfl, rfl⟩ := yields_pure.mp result
  let place : Place :=
    ⟨path, relationBase, layout.declared.idFields, walking ++ [layout.declared.name]⟩
  have walked : Yields (walkLevels walk place.scope place.ids (placedLevels path layout)) _ members d₅ :=
    walked
  obtain ⟨asked, derived⟩ := derives_levels sound walked
  exact ⟨rfl, _, .entity keyed room derived late⟩

/-- A relation after its link table. -/
theorem derives_linked (sound : WalksSoundly s walk) {scope : Scope} {f : FieldModel}
    {name : String} {target : TypeModel} {layout : Layout} {d d₁ d' : Draft} {m : Members}
    (cls : f.cls = .relation name) (describes : s.describe name = .ok target)
    (fresh : target.name ∉ scope.walking) (lays : s.layout target = .ok layout)
    (linked : Linked scope f d d₁)
    (h : Yields (liftM (relationCondition scope f target layout.main.table.name
      (scope.childPath f)) >>= fun condition =>
        walkEntity walk (scope.childPath f) (scope.childPath f) scope.walking layout
          (some ⟨f, relationKind f, relationJoin scope f condition⟩) >>= fun child =>
        pure (.relation f (relationKind f) child.head child.members .nil)) d₁ m d') :
    ∃ asked, Derives s (.field scope f) d m asked d' := by
  obtain ⟨condition, d₂, lifted, run⟩ := yields_bind.mp h
  obtain ⟨joined, rfl⟩ := yields_lift.mp lifted
  obtain ⟨child, d₃, ran, result⟩ := yields_bind.mp run
  obtain ⟨rfl, rfl⟩ := yields_pure.mp result
  obtain ⟨head, asked, walked⟩ := derives_entity sound ran
  rw [head]
  exact ⟨asked, .relation cls describes fresh lays linked joined walked⟩

theorem derives_relation (sound : WalksSoundly s walk) {scope : Scope} {f : FieldModel}
    {name : String} {target : TypeModel} {d d' : Draft} {m : Members}
    (cls : f.cls = .relation name) (describes : s.describe name = .ok target)
    (fresh : target.name ∉ scope.walking) (h : Yields (walkRelation s walk scope f target) d m d') :
    ∃ asked, Derives s (.field scope f) d m asked d' := by
  unfold walkRelation at h
  obtain ⟨layout, d₁, laid, run⟩ := yields_bind.mp h
  obtain ⟨lays, rfl⟩ := yields_lift.mp laid
  dsimp only at run
  split at run
  next link kind hasLink =>
    obtain ⟨table, d₂, lifted, adding⟩ := yields_bind.mp run
    obtain ⟨found, rfl⟩ := yields_lift.mp lifted
    obtain ⟨_, d₃, added, later⟩ := yields_bind.mp adding
    have linked : Linked scope f d₂ d₃ := by
      unfold Linked
      rw [kind, hasLink]
      exact ⟨table, found, yields_addAlias.mp added⟩
    exact derives_linked sound cls describes fresh lays linked later
  next noLink =>
    have linked : Linked scope f d₁ d₁ := by
      unfold Linked
      split
      next link kind hasLink => exact (noLink link kind hasLink).elim
      next => rfl
    exact derives_linked sound cls describes fresh lays linked run

theorem yields_enter {scope : Scope} {f : FieldModel} {name : String} {target : TypeModel}
    {d d' : Draft} :
    Yields (enter s scope f name) d target d' ↔
      s.describe name = .ok target ∧ target.name ∉ scope.walking ∧ d' = d := by
  unfold enter
  rw [yields_bind]
  constructor
  · rintro ⟨found, d₁, lifted, h⟩
    obtain ⟨described, rfl⟩ := yields_lift.mp lifted
    obtain ⟨fresh, result⟩ := yields_guard.mp h
    obtain ⟨rfl, rfl⟩ := yields_pure.mp result
    exact ⟨described, by simpa using fresh, rfl⟩
  · rintro ⟨described, fresh, rfl⟩
    exact ⟨target, d', yields_lift.mpr ⟨described, rfl⟩,
      yields_guard.mpr ⟨by simpa using fresh, yields_pure.mpr ⟨rfl, rfl⟩⟩⟩

theorem derives_fieldBy {deeper : Option (Scope → FieldModel → Walk Members)}
    (sound : ∀ walk, deeper = some walk → WalksSoundly s walk) :
    WalksSoundly s (walkFieldBy s deeper) := by
  intro scope f d m d' h
  unfold walkFieldBy at h
  split at h
  next cls => exact derives_column (by simp [FieldModel.isSingle, FieldModel.isRelation,
    FieldModel.isEmbedded, cls]) h
  next cls => exact derives_column (by simp [FieldModel.isSingle, FieldModel.isRelation,
    FieldModel.isEmbedded, cls]) h
  next name cls =>
    obtain ⟨target, d₁, entered, run⟩ := yields_bind.mp h
    obtain ⟨describes, fresh, rfl⟩ := yields_enter.mp entered
    cases deeper with
    | none => exact (not_yields_throw run).elim
    | some walk =>
      obtain ⟨inner, d₂, walked, result⟩ := yields_bind.mp run
      obtain ⟨rfl, rfl⟩ := yields_pure.mp result
      obtain ⟨asked, derived⟩ := derives_fields (sound walk rfl) walked
      exact ⟨asked, .embedded cls describes fresh derived⟩
  next name cls =>
    obtain ⟨target, d₁, entered, run⟩ := yields_bind.mp h
    obtain ⟨describes, fresh, rfl⟩ := yields_enter.mp entered
    cases deeper with
    | none => exact (not_yields_throw run).elim
    | some walk => exact derives_relation (sound walk rfl) cls describes fresh run

/-- Every success of the walk of a field is a derivation, down to any depth. -/
theorem derives_field (depth : Nat) : WalksSoundly s (walkField s depth) := by
  induction depth with
  | zero => exact derives_fieldBy fun _ h => nomatch h
  | succ depth ih => exact derives_fieldBy fun walk h => Option.some.inj h ▸ ih

end

/-- The plan that a walk from an empty draft has led to. -/
def planOf (root : Entity) (d : Draft) : Plan where
  aliases := d.aliases
  select := d.select
  extraJoins := d.lateJoins
  groupBy := d.groupBy ++ d.lateGroups.map .raw
  restriction := d.restriction
  root := some root

/-- A plan is that of a derivation from the empty draft, for the layout of the described type; the
walk asks for some entries of the select list. -/
structure Derivation (s : Schema) (name : String) (p : Plan) (asked : List SelectItem) where
  declared : TypeModel
  layout : Layout
  members : Members
  draft : Draft
  described : s.describe name = .ok declared
  laid : s.layout declared = .ok layout
  derived : Derives s (.entity layout.main.table.name "" [] layout none) {} members asked draft
  plan : p = planOf ⟨entityHead layout.main.table.name layout 0, members⟩ draft

/-- **Every plan has a derivation.** -/
theorem derivation_of_build {s : Schema} {name : String} {p : Plan}
    (h : Plan.build s name = .ok p) : ∃ asked, Nonempty (Derivation s name p asked) := by
  obtain ⟨declared, described, rest⟩ := ok_bind.mp h
  obtain ⟨layout, laid, run⟩ := ok_bind.mp rest
  obtain ⟨⟨root, d⟩, walked, result⟩ := ok_bind.mp run
  cases result
  obtain ⟨head, asked, derived⟩ := derives_entity (derives_field s.size) walked
  refine ⟨asked, ⟨⟨declared, layout, root.members, d, described, laid, derived, ?_⟩⟩⟩
  rw [planOf, ← show root.head = _ from head]

/-! ## Growth -/

/-- A draft has all that another has, in the same places; its aliases may have more columns. -/
structure Draft.Grows (d d' : Draft) : Prop where
  paths : d.paths <+: d'.paths
  select : d.select <+: d'.select
  counted : d.entityCount ≤ d'.entityCount

/-- A table is named as before when it gets a column. -/
theorem Alias.path_withColumn (a : Alias) (fieldPath column : String) :
    (a.withColumn fieldPath column).path = a.path := by
  unfold withColumn
  split <;> rfl

namespace Draft

variable {d d₁ d' : Draft}

theorem Grows.refl (d : Draft) : d.Grows d :=
  ⟨List.prefix_rfl, List.prefix_rfl, Nat.le_refl _⟩

theorem Grows.trans (first : d.Grows d₁) (rest : d₁.Grows d') : d.Grows d' :=
  ⟨first.paths.trans rest.paths, first.select.trans rest.select, Nat.le_trans first.counted rest.counted⟩

/-- A path once taken stays taken. -/
theorem Grows.mem_paths (h : d.Grows d') {path : String} (taken : path ∈ d.paths) : path ∈ d'.paths :=
  h.paths.subset taken

/-- A label once taken stays taken. -/
theorem Grows.mem_labels (h : d.Grows d') {label : String} (taken : label ∈ d.labels) :
    label ∈ d'.labels :=
  (h.select.map SelectItem.label).subset taken

theorem prefix_offer (items : List SelectItem) (e : Expression) (label : String) :
    items <+: offer items e label := by
  unfold offer
  split
  · exact List.prefix_rfl
  · exact List.prefix_append items _

@[simp]
theorem paths_registering (path fieldPath column : String) :
    (d.registering path fieldPath column).paths = d.paths := by
  unfold paths registering
  rw [List.map_map]
  refine List.map_congr_left fun a _ => ?_
  show (if a.path == path then a.withColumn fieldPath column else a).path = a.path
  split
  · exact a.path_withColumn fieldPath column
  · rfl

@[simp]
theorem paths_withAliases (as : List Alias) :
    (d.withAliases as).paths = d.paths ++ as.map (·.path) :=
  List.map_append

theorem paths_opened (path : String) (layout : Layout) (attachment : Option Attachment) :
    (d.opened path layout attachment).paths =
      d.paths ++ (entityAliases path layout attachment).map (·.path) :=
  paths_withAliases (d := d.limiting path layout attachment) _

theorem grows_selecting (e : Expression) (label : String) : d.Grows (d.selecting e label) :=
  ⟨List.prefix_rfl, prefix_offer d.select e label, Nat.le_refl _⟩

theorem grows_registering (path fieldPath column : String) :
    d.Grows (d.registering path fieldPath column) :=
  ⟨by simp, List.prefix_rfl, Nat.le_refl _⟩

theorem grows_grouping (wanted : Bool) (e : Expression) : d.Grows (d.grouping wanted e) :=
  ⟨List.prefix_rfl, List.prefix_rfl, Nat.le_refl _⟩

theorem grows_withAliases (as : List Alias) : d.Grows (d.withAliases as) :=
  ⟨by rw [paths_withAliases]; exact List.prefix_append _ _, List.prefix_rfl, Nat.le_refl _⟩

theorem grows_withKeys (path : String) (ids : List FieldModel) (d : Draft) :
    d.Grows (d.withKeys path ids) := by
  induction ids generalizing d with
  | nil => exact .refl d
  | cons id rest ih =>
    exact ((grows_selecting _ _).trans (grows_registering _ _ _)).trans (ih _)

theorem grows_discriminating (path : String) (layout : Layout) :
    d.Grows (d.discriminating path layout) := by
  refine ⟨List.prefix_rfl, ?_, Nat.le_refl _⟩
  unfold discriminating
  cases layout.discrimination with
  | none => exact List.prefix_rfl
  | some dis => exact prefix_offer _ _ _

theorem grows_opened (path : String) (layout : Layout) (attachment : Option Attachment) :
    d.Grows (d.opened path layout attachment) := by
  have limited : d.Grows (d.limiting path layout attachment) :=
    ⟨List.prefix_rfl, List.prefix_rfl, Nat.le_refl _⟩
  have counted : ∀ d₁ : Draft, d₁.Grows d₁.counting := fun _ =>
    ⟨List.prefix_rfl, List.prefix_rfl, Nat.le_succ _⟩
  exact limited.trans
    ((grows_withAliases _).trans ((grows_discriminating path layout).trans (counted _)))

end Draft

/-- Texts of types are anchored, and the draft is left as it is. -/
theorem yields_mapM_anchored {path : String} {texts found : List String} {d d' : Draft} :
    Yields (texts.mapM (anchored path)) d found d' ↔
      texts.mapM (rebase [("this", path)]) = .ok found ∧ d' = d := by
  induction texts generalizing found with
  | nil =>
    rw [List.mapM_nil, List.mapM_nil, yields_pure]
    exact and_congr_left fun _ => ⟨fun none => congrArg Except.ok none.symm,
      fun none => (Except.ok.inj none).symm⟩
  | cons text rest ih =>
    rw [List.mapM_cons, mapM_cons_ok, yields_bind]
    constructor
    · rintro ⟨first, d₁, lifted, more⟩
      obtain ⟨made, rfl⟩ := yields_lift.mp lifted
      obtain ⟨others, d₂, run, result⟩ := yields_bind.mp more
      obtain ⟨rfl, rfl⟩ := yields_pure.mp result
      obtain ⟨anchor, rfl⟩ := ih.mp run
      exact ⟨⟨first, others, made, anchor, rfl⟩, rfl⟩
    · rintro ⟨⟨first, others, made, run, rfl⟩, rfl⟩
      exact ⟨first, _, yields_lift.mpr ⟨made, rfl⟩,
        yields_bind.mpr ⟨others, _, ih.mpr ⟨run, rfl⟩, yields_pure.mpr ⟨rfl, rfl⟩⟩⟩

/-- With joins and grouping terms of types. -/
def Draft.withLate (d : Draft) (joins groups : List String) : Draft :=
  { d with lateJoins := d.lateJoins ++ joins, lateGroups := d.lateGroups ++ groups }

/-- The texts of one type are added before those of the next. -/
theorem yields_addLate_cons {path : String} {t : TypeLayer} {rest : List TypeLayer} {d d' : Draft}
    {u : Unit} :
    Yields (addLate path (t :: rest)) d u d' ↔ ∃ joins groups,
      t.joins.mapM (rebase [("this", path)]) = .ok joins ∧
      t.groupBy.mapM (rebase [("this", path)]) = .ok groups ∧
      Yields (addLate path rest) (d.withLate joins groups) u d' := by
  rw [addLate, yields_bind]
  constructor
  · rintro ⟨joins, d₁, joined, h₁⟩
    obtain ⟨joins_made, rfl⟩ := yields_mapM_anchored.mp joined
    obtain ⟨groups, d₂, grouped, h₂⟩ := yields_bind.mp h₁
    obtain ⟨groups_made, rfl⟩ := yields_mapM_anchored.mp grouped
    obtain ⟨_, d₃, added, run⟩ := yields_bind.mp h₂
    obtain rfl := yields_modify.mp added
    exact ⟨joins, groups, joins_made, groups_made, run⟩
  · rintro ⟨joins, groups, joined, grouped, run⟩
    exact ⟨joins, d, yields_mapM_anchored.mpr ⟨joined, rfl⟩, yields_bind.mpr ⟨groups, d,
      yields_mapM_anchored.mpr ⟨grouped, rfl⟩, yields_bind.mpr ⟨(), _, yields_modify.mpr rfl, run⟩⟩⟩

/-- The joins and grouping terms of types are all that `addLate` adds. -/
theorem late_of_addLate {path : String} {layers : List TypeLayer} {d d' : Draft} {u : Unit}
    (h : Yields (addLate path layers) d u d') :
    ∃ joins groups, d' = { d with lateJoins := joins, lateGroups := groups } := by
  induction layers generalizing d with
  | nil =>
    obtain ⟨-, rfl⟩ := yields_pure.mp h
    exact ⟨d'.lateJoins, d'.lateGroups, rfl⟩
  | cons t rest ih =>
    obtain ⟨joins, groups, -, -, run⟩ := yields_addLate_cons.mp h
    obtain ⟨joins', groups', rfl⟩ := ih run
    exact ⟨joins', groups', rfl⟩

theorem Draft.grows_late {path : String} {layers : List TypeLayer} {d d' : Draft} {u : Unit}
    (h : Yields (addLate path layers) d u d') : d.Grows d' := by
  obtain ⟨joins, groups, rfl⟩ := late_of_addLate h
  exact ⟨List.prefix_rfl, List.prefix_rfl, Nat.le_refl _⟩

theorem Linked.grows {scope : Scope} {f : FieldModel} {d d' : Draft} (h : Linked scope f d d') :
    d.Grows d' := by
  unfold Linked at h
  split at h
  next =>
    obtain ⟨a, -, -, rfl⟩ := h
    exact Draft.grows_withAliases [a]
  next => rw [h]; exact .refl d

/-- **A walk never takes anything back.** -/
theorem Derives.grows {s : Schema} {t : Task} {d d' : Draft} {m : Members}
    {asked : List SelectItem} (h : Derives s t d m asked d') : d.Grows d' := by
  induction h with
  | key => exact Draft.grows_grouping _ _
  | column =>
    exact (Draft.grows_registering _ _ _).trans
      ((Draft.grows_grouping _ _).trans (Draft.grows_selecting _ _))
  | computed => exact (Draft.grows_grouping _ _).trans (Draft.grows_selecting _ _)
  | embedded _ _ _ _ ih => exact ih
  | relation _ _ _ _ linked _ _ ih => exact linked.grows.trans ih
  | done => exact .refl _
  | skip _ _ ih => exact ih
  | next _ _ _ first rest => exact first.trans rest
  | bottom => exact .refl _
  | level _ _ first rest => exact (Draft.grows_withKeys _ _ _).trans (first.trans rest)
  | entity _ _ _ late ih => exact (Draft.grows_opened _ _ _).trans (ih.trans (Draft.grows_late late))

/-- **An entity takes a path that was free.** -/
theorem Derives.takes_path {s : Schema} {path relationBase : String} {walking : List String}
    {layout : Layout} {attachment : Option Attachment} {d d' : Draft} {m : Members}
    {asked : List SelectItem}
    (h : Derives s (.entity path relationBase walking layout attachment) d m asked d') :
    path ∈ d'.paths ∧ path ∉ d.paths := by
  cases h with
  | entity _ room walk late =>
    refine ⟨(walk.grows.trans (Draft.grows_late late)).mem_paths ?_, room.2 _ List.mem_cons_self⟩
    rw [Draft.paths_opened]
    exact List.mem_append_right _ List.mem_cons_self

/-! ## The entities of a plan -/

/-- An entity is what a walk has made for the layout of a described type. -/
inductive Entity.Walked (s : Schema) : Entity → Prop where
  | intro {name : String} {target : TypeModel} {layout : Layout} {path relationBase : String}
      {walking : List String} {attachment : Option Attachment} {d d' : Draft} {members : Members}
      {asked : List SelectItem} (describes : s.describe name = .ok target)
      (lays : s.layout target = .ok layout)
      (walk : Derives s (.entity path relationBase walking layout attachment) d members asked d') :
      Walked s ⟨entityHead path layout d.entityCount, members⟩

theorem Derives.walked {s : Schema} {t : Task} {d d' : Draft} {m : Members}
    {asked : List SelectItem} (h : Derives s t d m asked d') :
    ∀ x ∈ m.entities, Entity.Walked s ⟨x.1, x.2⟩ := by
  induction h with
  | key => exact fun _ hx => absurd hx List.not_mem_nil
  | column => exact fun _ hx => absurd hx List.not_mem_nil
  | computed => exact fun _ hx => absurd hx List.not_mem_nil
  | embedded _ _ _ _ ih =>
    intro x hx
    rw [Members.entities_embedded] at hx
    exact ih x hx
  | relation _ describes _ lays _ _ walk ih =>
    intro x hx
    rw [Members.entities_relation] at hx
    rcases List.mem_cons.mp hx with rfl | below
    · exact .intro describes lays walk
    · exact ih x below
  | done => exact fun _ hx => absurd hx List.not_mem_nil
  | skip _ _ ih => exact ih
  | next _ _ _ first rest =>
    intro x hx
    rw [Members.entities_append] at hx
    exact (List.mem_append.mp hx).elim (first x) (rest x)
  | bottom => exact fun _ hx => absurd hx List.not_mem_nil
  | level _ _ first rest =>
    intro x hx
    rw [Members.entities_append] at hx
    exact (List.mem_append.mp hx).elim (first x) (rest x)
  | entity _ _ _ _ ih => exact ih

/-- **Every entity of a plan is one that a walk has made.** -/
theorem Derivation.walked {s : Schema} {name : String} {p : Plan} {asked : List SelectItem}
    (h : Derivation s name p asked) : ∀ e ∈ p.entities, e.Walked s := by
  obtain ⟨_, layout, members, d, describes, lays, derived, rfl⟩ := h
  intro e he
  rcases List.mem_cons.mp he with rfl | below
  · exact .intro (d := {}) describes lays derived
  · obtain ⟨x, hx, rfl⟩ := List.mem_map.mp below
    exact derived.walked x hx

end Orm.Plan
