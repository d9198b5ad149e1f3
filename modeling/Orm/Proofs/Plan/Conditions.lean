import Mathlib.Data.List.Forall2
import Orm.Proofs.Plan.Derivation
import Orm.Proofs.Schema.Conditions
import Orm.Proofs.Sql.Rebasing

/-!
# `Proofs.Plan.Conditions` — a walk with other join conditions

The walk of a schema whose fields have other join conditions follows the walk of the schema step by
step. Both are in drafts that differ in the conditions of relations only, and the two conditions of a
relation come from one place: one scope, in which one field is joined with the condition that it has
and with the one that it is given.

## Contents
- **Places.** `Conditions.scope`, `inferredCondition_given`, `Draft.homes`.
- **Drafts.** `AliasGiven`, `Draft.Given` and the steps of the walk on drafts.
- **Walks.** `Follows` with one lemma for each operation of the walk.
- **Plans.** `Plan.Given`, `build_given`.
-/

namespace Orm.Schema.Conditions

open Plan Sql

variable (g : Conditions)

/-! ## Places -/

/-- The place of fields with the conditions that are given to them. -/
def scope (scope : Scope) : Scope :=
  { scope with ownerIds := scope.ownerIds.map g.field }

/-- What a table is in a plan for. -/
def role : AliasRole → AliasRole
  | .entity t => .entity (g.type t)
  | .level t => .level (g.type t)
  | .link => .link

/-- All conditions that are given can be read. -/
def Readable : Prop :=
  ∀ owner name text, g owner name = some text → ∃ ls, lexemes text.toList = .ok ls

theorem singleKey_given (type : String) (ids : List FieldModel) :
    singleKey type (ids.map g.field) = (singleKey type ids).map g.field := by
  unfold singleKey
  cases ids with
  | nil => rfl
  | cons id rest =>
    cases rest with
    | nil => rfl
    | cons _ _ => simp [Except.map]

/-- What is inferred does not depend on conditions. -/
theorem inferredCondition_given (sc : Scope) (f : FieldModel) (target : TypeModel)
    (table childPath : String) :
    inferredCondition (g.scope sc) (g.field f) (g.type target) table childPath =
      inferredCondition sc f target table childPath := by
  have owner : singleKey f.owner (g.scope sc).ownerIds = (singleKey f.owner sc.ownerIds).map g.field :=
    g.singleKey_given f.owner sc.ownerIds
  have targets : singleKey target.name (g.type target).idFields =
      (singleKey target.name target.idFields).map g.field := by
    rw [g.idFields_type]
    exact g.singleKey_given target.name target.idFields
  have kind : relationKind (g.field f) = relationKind f := rfl
  unfold inferredCondition
  rw [kind]
  cases relationKind f with
  | toOne =>
    show (singleKey target.name (g.type target).idFields >>= _) = _
    rw [targets]
    cases singleKey target.name target.idFields <;> rfl
  | toManyDirect =>
    show (singleKey f.owner (g.scope sc).ownerIds >>= _) = _
    rw [owner]
    cases singleKey f.owner sc.ownerIds <;> rfl
  | toManyLinked =>
    show (singleKey target.name (g.type target).idFields >>= _) = _
    rw [targets]
    cases singleKey target.name target.idFields <;> rfl

theorem relationCondition_given (sc : Scope) (f : FieldModel) (target : TypeModel)
    (table childPath : String) :
    relationCondition (g.scope sc) (g.field f) (g.type target) table childPath =
      relationCondition sc (g.field f) target table childPath := by
  have inferred : inferredCondition (g.scope sc) (g.field f) (g.type target) table childPath =
      inferredCondition sc (g.field f) target table childPath :=
    (g.inferredCondition_given sc f target table childPath).trans rfl
  unfold relationCondition
  rw [inferred]
  rfl

end Orm.Schema.Conditions

namespace Orm.Plan

open Sql Schema

/-! ## Drafts -/

/-- The tables that an alias stands for, each after the path of the alias: those of its entity, or
the link table. -/
def Alias.homes (a : Alias) : List (String × String) :=
  match a.role with
  | .level _ => []
  | _ => (a.path :: a.levels).map fun table => (a.path, table)

def homes (aliases : List Alias) : List (String × String) :=
  aliases.flatMap (·.homes)

/-- Two ways to join a table: the same, unless a relation leads to it. Then both conditions come from
one place, where the field is joined with the condition that it has and with the one that it is
given. -/
inductive JoinGiven (g : Conditions) (hs : List (String × String)) (a : Alias) :
    Option Join → Option Join → Prop where
  | same {j : Option Join} (apart : a.relation = none ∨ a.role = .link) : JoinGiven g hs a j j
  | related {scope : Scope} {f : FieldModel} {target : TypeModel} {c c' : Condition}
      {restriction : Option Restriction} (home : (scope.entityPath, scope.levelAlias) ∈ hs)
      (linked : relationKind f = .toManyLinked → (linkPath a.path, linkPath a.path) ∈ hs)
      (relation : a.relation = some (f, relationKind f)) (path : a.path = scope.childPath f)
      (has : relationCondition scope f target a.table.name a.path = .ok c)
      (given : relationCondition scope (g.field f) target a.table.name a.path = .ok c') :
      JoinGiven g hs a (some { relationJoin scope f c with restriction := restriction })
        (some { relationJoin scope f c' with restriction := restriction })

/-- A table in two plans: all is the same but for the conditions of fields. -/
structure AliasGiven (g : Conditions) (hs : List (String × String)) (a b : Alias) : Prop where
  path : b.path = a.path
  table : b.table = a.table
  role : b.role = g.role a.role
  relation : b.relation = a.relation.map fun r => (g.field r.1, r.2)
  join : JoinGiven g hs a a.join b.join
  columns : b.columns = a.columns
  levels : b.levels = a.levels

/-- A draft and one with other conditions. -/
structure Draft.Given (g : Conditions) (d d' : Draft) : Prop where
  aliases : List.Forall₂ (AliasGiven g (homes d.aliases)) d.aliases d'.aliases
  select : d'.select = d.select
  groupBy : d'.groupBy = d.groupBy
  restriction : d'.restriction = d.restriction
  entityCount : d'.entityCount = d.entityCount
  lateJoins : d'.lateJoins = d.lateJoins
  lateGroups : d'.lateGroups = d.lateGroups

section

variable {g : Conditions} {hs more : List (String × String)} {a b : Alias} {d d' : Draft}

theorem JoinGiven.mono {j j' : Option Join} (h : JoinGiven g hs a j j') (sub : hs ⊆ more) :
    JoinGiven g more a j j' := by
  cases h with
  | same apart => exact .same apart
  | related home linked relation path has given =>
    exact .related (sub home) (fun kind => sub (linked kind)) relation path has given

theorem AliasGiven.mono (h : AliasGiven g hs a b) (sub : hs ⊆ more) : AliasGiven g more a b :=
  { h with join := h.join.mono sub }

theorem homes_append (as bs : List Alias) : homes (as ++ bs) = homes as ++ homes bs :=
  List.flatMap_append

theorem forall₂_mono {as bs : List Alias} (h : List.Forall₂ (AliasGiven g hs) as bs)
    (sub : hs ⊆ more) : List.Forall₂ (AliasGiven g more) as bs :=
  h.imp fun _ _ given => given.mono sub

/-- The paths of the tables are the same. -/
theorem paths_of_given {as bs : List Alias} (h : List.Forall₂ (AliasGiven g hs) as bs) :
    bs.map (·.path) = as.map (·.path) := by
  induction h with
  | nil => rfl
  | cons first _ ih => rw [List.map_cons, List.map_cons, first.path, ih]

namespace Draft.Given

theorem selecting (h : Draft.Given g d d') (e : Expression) (label : String) :
    Draft.Given g (d.selecting e label) (d'.selecting e label) :=
  { h with select := by rw [Draft.selecting, Draft.selecting, h.select] }

theorem grouping (h : Draft.Given g d d') (wanted : Bool) (e : Expression) :
    Draft.Given g (d.grouping wanted e) (d'.grouping wanted e) :=
  { h with groupBy := by rw [Draft.grouping, Draft.grouping, h.groupBy] }

/-- Columns change neither what a table is for nor how it is joined. -/
theorem homes_registering (d : Draft) (path fieldPath column : String) :
    homes (d.registering path fieldPath column).aliases = homes d.aliases := by
  have same : ∀ a : Alias,
      (if a.path == path then a.withColumn fieldPath column else a).homes = a.homes := by
    intro a
    unfold Alias.withColumn
    split_ifs <;> rfl
  unfold homes registering
  rw [List.flatMap_map]
  exact congrArg (fun f => d.aliases.flatMap f) (funext same)

theorem registering (h : Draft.Given g d d') (path fieldPath column : String) :
    Draft.Given g (d.registering path fieldPath column) (d'.registering path fieldPath column) := by
  -- A table gets the column in both drafts or in neither, since it has the same columns in both.
  have both : ∀ hs (a b : Alias), AliasGiven g hs a b →
      AliasGiven g hs (if a.path == path then a.withColumn fieldPath column else a)
        (if b.path == path then b.withColumn fieldPath column else b) := by
    intro hs a b given
    rw [given.path]
    split_ifs
    · have found : b.column? fieldPath = a.column? fieldPath :=
        congrArg (·.lookup fieldPath) given.columns
      unfold Alias.withColumn
      rw [found]
      split_ifs
      · exact given
      · have join := given.join
        refine { given with columns := congrArg (· ++ _) given.columns, join := ?_ }
        show JoinGiven g hs _ a.join b.join
        revert join
        generalize a.join = j
        generalize b.join = j'
        intro join
        cases join with
        | same apart => exact .same apart
        | related home linked relation path has given =>
          exact .related home linked relation path has given
    · exact given
  refine { h with aliases := ?_ }
  rw [homes_registering]
  exact List.rel_map (fun a b given => both _ a b given) h.aliases

theorem withKeys (h : Draft.Given g d d') (path : String) (ids : List FieldModel) :
    Draft.Given g (d.withKeys path ids) (d'.withKeys path (ids.map g.field)) := by
  induction ids generalizing d d' with
  | nil => exact h
  | cons id rest ih => exact ih ((h.selecting _ _).registering _ _ _)

theorem withAliases (h : Draft.Given g d d') {as bs : List Alias}
    (both : List.Forall₂ (AliasGiven g (homes d.aliases ++ homes as)) as bs) :
    Draft.Given g (d.withAliases as) (d'.withAliases bs) := by
  refine { h with aliases := ?_ }
  show List.Forall₂ (AliasGiven g (homes (d.aliases ++ as))) (d.aliases ++ as) (d'.aliases ++ bs)
  rw [homes_append]
  exact List.rel_append (forall₂_mono h.aliases (List.subset_append_left _ _)) both

theorem counting (h : Draft.Given g d d') : Draft.Given g d.counting d'.counting :=
  { h with entityCount := congrArg (· + 1) h.entityCount }

theorem discriminating (h : Draft.Given g d d') (path : String) (layout : Layout) :
    Draft.Given g (d.discriminating path layout) (d'.discriminating path (g.layout layout)) := by
  refine { h with select := ?_ }
  unfold Draft.discriminating
  have told : (g.layout layout).discrimination = layout.discrimination.map g.discrimination := rfl
  rw [told]
  cases layout.discrimination with
  | none => exact h.select
  | some dis =>
    show offer d'.select _ _ = offer d.select _ _
    rw [h.select]
    rfl

end Draft.Given

end

/-! ## Walks -/

/-- From drafts that differ in given conditions, a second step of the walk succeeds when the first
does. Then the results are related, and the drafts still differ in given conditions only. The tables
of some entities are there already. -/
def Follows (g : Conditions) (hs : List (String × String)) {α β : Type} (R : α → β → Prop)
    (x : Walk α) (y : Walk β) : Prop :=
  ∀ ⦃d d' a d₁⦄, Draft.Given g d d' → hs ⊆ homes d.aliases → Yields x d a d₁ →
    ∃ b d₁', Yields y d' b d₁' ∧ R a b ∧ Draft.Given g d₁ d₁' ∧ homes d.aliases ⊆ homes d₁.aliases

/-- Results that nothing is asked of. -/
def Anyhow {α β : Type} (_ : α) (_ : β) : Prop := True

section

variable {g : Conditions} {hs : List (String × String)} {a b : Alias} {α β γ δ : Type}
  {R : α → β → Prop} {S : γ → δ → Prop}

namespace Follows

theorem pure {a : α} {b : β} (h : R a b) : Follows g hs R (Pure.pure a) (Pure.pure b) := by
  intro d d' c d₁ given _ run
  obtain ⟨rfl, rfl⟩ := yields_pure.mp run
  exact ⟨b, d', yields_pure.mpr ⟨rfl, rfl⟩, h, given, List.Subset.refl _⟩

theorem bind {x : Walk α} {y : Walk β} {f : α → Walk γ} {k : β → Walk δ} (first : Follows g hs R x y)
    (rest : ∀ a b, R a b → Follows g hs S (f a) (k b)) : Follows g hs S (x >>= f) (y >>= k) := by
  intro d d' c d₁ given there run
  obtain ⟨a, d₂, ran, later⟩ := yields_bind.mp run
  obtain ⟨b, d₂', follows, related, given₂, kept⟩ := first given there ran
  have there₂ := List.Subset.trans there kept
  obtain ⟨c', d₁', end_, related', given₁, kept'⟩ := rest a b related given₂ there₂ later
  exact ⟨c', d₁', yields_bind.mpr ⟨b, d₂', follows, end_⟩, related', given₁,
    List.Subset.trans kept kept'⟩

/-- A step whose result is changed. -/
theorem map {x : Walk α} {y : Walk β} {f : α → γ} {k : β → δ} (h : Follows g hs R x y)
    (related : ∀ a b, R a b → S (f a) (k b)) : Follows g hs S (f <$> x) (k <$> y) := by
  rw [map_eq_pure_bind, map_eq_pure_bind]
  exact h.bind fun a b r => .pure (related a b r)

/-- A computation without a draft. -/
theorem lift {x : Except Error α} {y : Except Error β}
    (h : ∀ a, x = .ok a → ∃ b, y = .ok b ∧ R a b) : Follows g hs R (liftM x) (liftM y) := by
  intro d d' a d₁ given _ run
  obtain ⟨found, rfl⟩ := yields_lift.mp run
  obtain ⟨b, found', related⟩ := h a found
  exact ⟨b, d', yields_lift.mpr ⟨found', rfl⟩, related, given, List.Subset.refl _⟩

/-- A guard that both steps pass or neither. -/
theorem guard {c c' : Prop} [Decidable c] [Decidable c'] {e e' : Error} {x : Walk α} {y : Walk β}
    (same : c' ↔ c) (h : Follows g hs R x y) :
    Follows g hs R (if c then throw e else x) (if c' then throw e' else y) := by
  intro d d' a d₁ given there run
  obtain ⟨passed, ran⟩ := yields_guard.mp run
  obtain ⟨b, d₁', follows, rest⟩ := h given there ran
  exact ⟨b, d₁', yields_guard.mpr ⟨fun fires => passed (same.mp fires), follows⟩, rest⟩

/-- What is done only where a condition holds. -/
theorem ite {c : Prop} [Decidable c] {x x₂ : Walk α} {y y₂ : Walk β} (yes : Follows g hs R x y)
    (no : Follows g hs R x₂ y₂) : Follows g hs R (if c then x else x₂) (if c then y else y₂) := by
  split_ifs
  · exact yes
  · exact no

/-- A step that is only done where a condition holds, and what comes after it. -/
theorem optional {c : Prop} [Decidable c] {x y : Walk Unit} {x₂ : Walk α} {y₂ : Walk β}
    (first : Follows g hs Anyhow x y) (rest : Follows g hs R x₂ y₂) :
    Follows g hs R (if c then x >>= fun _ => x₂ else x₂) (if c then y >>= fun _ => y₂ else y₂) :=
  .ite (first.bind fun _ _ _ => rest) rest

/-- A change of the draft that no table is touched by. -/
theorem of_change {x y : Walk Unit} {f k : Draft → Draft}
    (hx : ∀ d u d₁, Yields x d u d₁ → d₁ = f d) (hy : ∀ d, Yields y d () (k d))
    (given : ∀ d d', Draft.Given g d d' → Draft.Given g (f d) (k d'))
    (kept : ∀ d, homes (f d).aliases = homes d.aliases) : Follows g hs Anyhow x y := by
  intro d d' u d₁ both _ run
  obtain rfl := hx d u d₁ run
  refine ⟨(), k d', hy d', trivial, given d d' both, ?_⟩
  rw [kept]
  exact List.Subset.refl _

end Follows

/-! ### Steps -/

theorem follows_addSelect (e : Expression) (label : String) :
    Follows g hs Anyhow (addSelect e label) (addSelect e label) :=
  .of_change (fun _ _ _ run => yields_addSelect.mp run) (fun _ => yields_addSelect.mpr rfl)
    (fun _ _ given => given.selecting e label) (fun _ => rfl)

theorem follows_addGroup (wanted : Bool) (e : Expression) :
    Follows g hs Anyhow (addGroup wanted e) (addGroup wanted e) :=
  .of_change (fun _ _ _ run => yields_addGroup.mp run) (fun _ => yields_addGroup.mpr rfl)
    (fun _ _ given => given.grouping wanted e) (fun _ => rfl)

theorem follows_registerColumn (path fieldPath column : String) :
    Follows g hs Anyhow (registerColumn path fieldPath column)
      (registerColumn path fieldPath column) :=
  .of_change (fun _ _ _ run => yields_registerColumn.mp run) (fun _ => yields_registerColumn.mpr rfl)
    (fun _ _ given => given.registering path fieldPath column)
    (fun d => Draft.Given.homes_registering d path fieldPath column)

theorem follows_setRestriction (restriction : Option Restriction) :
    Follows g hs Anyhow (setRestriction restriction) (setRestriction restriction) :=
  .of_change (fun _ _ _ run => yields_modify.mp run) (fun _ => yields_modify.mpr rfl)
    (fun _ _ given => { given with restriction := rfl }) (fun _ => rfl)

theorem follows_walkKeys (path : String) (ids : List FieldModel) :
    Follows g hs Anyhow (walkKeys path ids) (walkKeys path (ids.map g.field)) := by
  have kept : ∀ d : Draft, homes (d.withKeys path ids).aliases = homes d.aliases := by
    intro d
    induction ids generalizing d with
    | nil => rfl
    | cons id rest ih =>
      have registered := Draft.Given.homes_registering
        (d.selecting (.column ⟨path, id.column⟩) (path ++ "." ++ id.name)) path id.name id.column
      exact (ih _).trans registered
  exact .of_change (fun _ _ _ run => yields_walkKeys.mp run) (fun _ => yields_walkKeys.mpr rfl)
    (fun _ _ given => given.withKeys path ids) kept

theorem follows_nextEntity : Follows g hs Anyhow nextEntity nextEntity := by
  intro d d' n d₁ given _ run
  obtain ⟨-, rfl⟩ := yields_nextEntity.mp run
  exact ⟨_, _, yields_nextEntity.mpr ⟨rfl, rfl⟩, trivial, given.counting, List.Subset.refl _⟩

theorem follows_walkDiscriminator (path : String) (layout : Layout) :
    Follows g hs Anyhow (walkDiscriminator path layout)
      (walkDiscriminator path (g.layout layout)) := by
  intro d d' o d₁ given _ run
  obtain ⟨-, rfl⟩ := yields_walkDiscriminator.mp run
  exact ⟨_, _, yields_walkDiscriminator.mpr ⟨rfl, rfl⟩, trivial, given.discriminating path layout,
    List.Subset.refl _⟩

theorem follows_anchored (path : String) (texts : List String) :
    Follows g hs Eq (texts.mapM (anchored path)) (texts.mapM (anchored path)) := by
  induction texts with
  | nil =>
    rw [List.mapM_nil]
    exact .pure rfl
  | cons text rest ih =>
    have here : Follows g hs Eq (anchored path text) (anchored path text) :=
      .lift fun found made => ⟨found, made, rfl⟩
    rw [List.mapM_cons]
    apply here.bind
    rintro found _ rfl
    apply ih.bind
    rintro others _ rfl
    exact .pure rfl

theorem follows_addLate (path : String) (layers : List TypeLayer) :
    Follows g hs Anyhow (addLate path layers) (addLate path (layers.map g.layer)) := by
  induction layers with
  | nil => exact .pure trivial
  | cons l rest ih =>
    rw [List.map_cons, addLate, addLate]
    apply (follows_anchored path l.joins).bind
    rintro joins _ rfl
    apply (follows_anchored path l.groupBy).bind
    rintro groups _ rfl
    refine Follows.bind (R := Anyhow) ?_ fun _ _ _ => ih
    refine .of_change (fun _ _ _ run => yields_modify.mp run) (fun _ => yields_modify.mpr rfl) ?_
      fun _ => rfl
    intro d d' given
    exact { given with
      lateJoins := congrArg (· ++ joins) given.lateJoins
      lateGroups := congrArg (· ++ groups) given.lateGroups }

/-- A table under a path, and what comes after it. -/
theorem follows_addAliases {as bs : List Alias} {x : Walk α} {y : Walk β}
    (both : List.Forall₂ (AliasGiven g (hs ++ homes as)) as bs)
    (rest : Follows g (hs ++ homes as) R x y) :
    Follows g hs R (addAliases as >>= fun _ => x) (addAliases bs >>= fun _ => y) := by
  intro d d' a d₁ given there run
  obtain ⟨_, d₂, added, later⟩ := yields_bind.mp run
  obtain ⟨room, rfl⟩ := yields_addAliases.mp added
  have known : hs ++ homes as ⊆ homes d.aliases ++ homes as :=
    List.append_subset.mpr
      ⟨List.Subset.trans there (List.subset_append_left _ _), List.subset_append_right _ _⟩
  have given₂ := given.withAliases (forall₂_mono both known)
  have room' : d'.HasRoom bs := by
    have free := paths_of_given given.aliases
    have own := paths_of_given both
    refine ⟨own ▸ room.1, ?_⟩
    intro b hb taken
    have mem : b.path ∈ as.map (·.path) := own ▸ List.mem_map_of_mem hb
    obtain ⟨a, ha, same⟩ := List.mem_map.mp mem
    apply room.2 a ha
    rw [same]
    unfold Draft.paths at taken ⊢
    rw [← free]
    exact taken
  have kept : homes (d.withAliases as).aliases = homes d.aliases ++ homes as := homes_append _ _
  obtain ⟨b, d₁', follows, related, given₁, more⟩ := rest given₂ (kept ▸ known) later
  refine ⟨b, d₁', yields_bind.mpr ⟨(), _, yields_addAliases.mpr ⟨room', rfl⟩, follows⟩, related,
    given₁, List.Subset.trans ?_ more⟩
  rw [kept]
  exact List.subset_append_left _ _

/-- The tables of an entity, and what comes after them. -/
theorem follows_tables {as bs : List Alias} {x : Walk α} {y : Walk β}
    (main : AliasGiven g (hs ++ homes (a :: as)) a b)
    (others : List.Forall₂ (AliasGiven g (hs ++ homes (a :: as))) as bs)
    (rest : Follows g (hs ++ homes (a :: as)) R x y) :
    Follows g hs R (addAlias a >>= fun _ => addAliases as >>= fun _ => x)
      (addAlias b >>= fun _ => addAliases bs >>= fun _ => y) := by
  rw [← bind_assoc, ← bind_assoc]
  exact follows_addAliases (.cons main others) rest

/-! ### Fields -/

theorem follows_columnExpression (scope : Scope) (f : FieldModel) :
    Follows g hs Eq (columnExpression scope f) (columnExpression (g.scope scope) (g.field f)) := by
  unfold columnExpression
  have sql : (g.field f).sql = f.sql := rfl
  rw [sql]
  cases f.sql with
  | some sql =>
    have anchor : Follows g hs Eq (anchored scope.entityPath sql) (anchored scope.entityPath sql) :=
      .lift fun text made => ⟨text, made, rfl⟩
    exact anchor.map fun _ _ same => congrArg Expression.raw same
  | none =>
    exact (follows_registerColumn _ _ _).bind fun _ _ _ => .pure rfl

theorem follows_walkColumn (scope : Scope) (f : FieldModel) :
    Follows g hs Anyhow (walkColumn scope f) (walkColumn (g.scope scope) (g.field f)) := by
  unfold walkColumn
  have key : (g.scope scope).isKey (g.field f) = scope.isKey f := rfl
  rw [key]
  split_ifs
  · exact (follows_addGroup _ _).bind fun _ _ _ => .pure trivial
  · apply (follows_columnExpression scope f).bind
    rintro e _ rfl
    apply (follows_addGroup _ _).bind
    intro _ _ _
    apply (follows_addSelect _ _).bind
    intro _ _ _
    exact .pure trivial

theorem follows_walkFields {walk walk' : FieldModel → Walk Members} {fs : List FieldModel}
    (h : ∀ f ∈ fs, Follows g hs Anyhow (walk f) (walk' (g.field f))) :
    Follows g hs Anyhow (walkFields walk fs) (walkFields walk' (fs.map g.field)) := by
  induction fs with
  | nil => exact .pure trivial
  | cons f rest ih =>
    have later := ih fun f' hf' => h f' (List.mem_cons_of_mem f hf')
    rw [List.map_cons, walkFields, walkFields]
    apply Follows.ite later
    apply (h f List.mem_cons_self).bind
    intro here here' _
    apply later.bind
    intro rest rest' _
    exact .pure trivial

/-! ### Entities -/

/-- A way to walk fields, and one for the fields with given conditions. -/
def WalkFollows (g : Conditions) (walk walk' : Scope → FieldModel → Walk Members) : Prop :=
  ∀ hs scope f, (scope.entityPath, scope.levelAlias) ∈ hs →
    Follows g hs Anyhow (walk scope f) (walk' (g.scope scope) (g.field f))

/-- A level with its alias, with given conditions. -/
def placedGiven (g : Conditions) (p : PlacedLevel) : PlacedLevel :=
  { p with level := g.level p.level }

theorem sideLevels_given (path : String) (layout : Layout) :
    sideLevels path (g.layout layout) = (sideLevels path layout).map (placedGiven g) := by
  unfold sideLevels
  rw [List.map_append, List.map_map, List.map_map]
  show (layout.above.map g.level).map _ ++ (layout.below.map g.level).map _ = _
  rw [List.map_map, List.map_map]
  rfl

theorem placedLevels_given (path : String) (layout : Layout) :
    placedLevels path (g.layout layout) = (placedLevels path layout).map (placedGiven g) := by
  unfold placedLevels
  rw [List.map_append, List.map_cons, List.map_map, List.map_map]
  show (layout.above.map g.level).map _ ++ _ :: (layout.below.map g.level).map _ = _
  rw [List.map_map, List.map_map]
  rfl

theorem entityRestriction_given (path : String) (layout : Layout) :
    entityRestriction path (g.layout layout) = entityRestriction path layout := by
  unfold entityRestriction
  show ((layout.discrimination.map g.discrimination).bind _) = _
  cases layout.discrimination <;> rfl

/-- The levels of an entity are among its tables. -/
theorem mem_homes_of_placed {path : String} {layout : Layout} {attachment : Option Attachment}
    {p : PlacedLevel} (hp : p ∈ placedLevels path layout) :
    (path, p.path) ∈ homes (entityAliases path layout attachment) := by
  have table : p.path ∈ path :: (sideLevels path layout).map (·.path) := by
    unfold placedLevels at hp
    unfold sideLevels
    rw [List.map_append]
    rcases List.mem_append.mp hp with above | hp
    · exact List.mem_cons_of_mem _ (List.mem_append_left _ (List.mem_map_of_mem above))
    rcases List.mem_cons.mp hp with rfl | below
    · exact List.mem_cons_self
    · exact List.mem_cons_of_mem _ (List.mem_append_right _ (List.mem_map_of_mem below))
  exact List.mem_append_left _ (List.mem_map_of_mem table)

theorem levelAlias_given (path : String) (ids : List FieldModel) (isRoot : Bool) (p : PlacedLevel) :
    AliasGiven g hs (levelAlias path ids isRoot p)
      (levelAlias path (ids.map g.field) isRoot (placedGiven g p)) where
  path := rfl
  table := rfl
  role := rfl
  relation := rfl
  columns := rfl
  levels := rfl
  join := by
    have condition : (ids.map g.field).map (fun id => ((⟨p.path, id.column⟩, ⟨path, id.column⟩) :
        ColumnRef × ColumnRef)) = ids.map fun id => (⟨p.path, id.column⟩, ⟨path, id.column⟩) := by
      rw [List.map_map]
      rfl
    have joined : (levelAlias path (ids.map g.field) isRoot (placedGiven g p)).join =
        (levelAlias path ids isRoot p).join := by
      show some _ = some _
      simp only [placedGiven, condition]
      rfl
    rw [joined]
    exact .same (.inl rfl)

theorem follows_walkLevels {walk walk' : Scope → FieldModel → Walk Members}
    (follows : WalkFollows g walk walk') {scopeOf scopeOf' : PlacedLevel → Scope}
    {ids : List FieldModel} {ps : List PlacedLevel}
    (scopes : ∀ p ∈ ps, scopeOf' (placedGiven g p) = g.scope (scopeOf p))
    (there : ∀ p ∈ ps, ((scopeOf p).entityPath, (scopeOf p).levelAlias) ∈ hs) :
    Follows g hs Anyhow (walkLevels walk scopeOf ids ps)
      (walkLevels walk' scopeOf' (ids.map g.field) (ps.map (placedGiven g))) := by
  induction ps with
  | nil => exact .pure trivial
  | cons p rest ih =>
    have later := ih (fun q hq => scopes q (List.mem_cons_of_mem p hq))
      fun q hq => there q (List.mem_cons_of_mem p hq)
    rw [List.map_cons, walkLevels, walkLevels]
    apply (follows_walkKeys p.path ids).bind
    intro _ _ _
    have fields : Follows g hs Anyhow (walkFields (walk (scopeOf p)) p.level.fields)
        (walkFields (walk' (scopeOf' (placedGiven g p))) (p.level.fields.map g.field)) := by
      rw [scopes p List.mem_cons_self]
      apply follows_walkFields
      intro f _
      exact follows hs (scopeOf p) f (there p List.mem_cons_self)
    apply fields.bind
    intro here here' _
    apply later.bind
    intro rest rest' _
    exact .pure trivial

theorem follows_walkEntity {walk walk' : Scope → FieldModel → Walk Members}
    (follows : WalkFollows g walk walk') (path relationBase : String) (walking : List String)
    (layout : Layout) {attachment attachment' : Option Attachment}
    (root : attachment'.isNone = attachment.isNone)
    (joined : ∀ more, hs ⊆ more → AliasGiven g more (entityAlias path layout attachment)
      (entityAlias path (g.layout layout) attachment')) :
    Follows g hs Anyhow (walkEntity walk path relationBase walking layout attachment)
      (walkEntity walk' path relationBase walking (g.layout layout) attachment') := by
  have ids : (g.layout layout).declared.idFields = layout.declared.idFields.map g.field :=
    g.idFields_type layout.declared
  have levels := placedLevels_given (g := g) path layout
  have more : hs ⊆ hs ++ homes (entityAliases path layout attachment) := List.subset_append_left _ _
  -- The tables of the other levels are those of the levels, which differ in their fields only.
  have others : List.Forall₂ (AliasGiven g (hs ++ homes (entityAliases path layout attachment)))
      ((sideLevels path layout).map (levelAlias path layout.declared.idFields attachment.isNone))
      ((sideLevels path (g.layout layout)).map
        (levelAlias path (layout.declared.idFields.map g.field) attachment.isNone)) := by
    rw [sideLevels_given, List.map_map]
    exact List.forall₂_map_left_iff.mpr (List.forall₂_map_right_iff.mpr
      (List.forall₂_same.mpr fun p _ => levelAlias_given path _ _ p))
  unfold walkEntity
  apply Follows.guard
  · rw [levels, List.length_map, ids, List.isEmpty_map]
  dsimp only
  rw [root, ids, levels, entityRestriction_given]
  apply Follows.optional (follows_setRestriction _)
  apply follows_tables (joined _ more) others
  apply (follows_walkDiscriminator path layout).bind
  intro _ _ _
  apply follows_nextEntity.bind
  intro _ _ _
  -- The fields of a level may hang off the tables that the entity has just opened.
  refine Follows.bind (R := Anyhow) (follows_walkLevels follows ?_ ?_) ?_
  · exact fun p _ => rfl
  · intro p hp
    exact List.mem_append_right hs (mem_homes_of_placed hp)
  intro members members' _
  have late : Follows g (hs ++ homes (entityAliases path layout attachment)) Anyhow
      (addLate path layout.declared.layers) (addLate path (layout.declared.layers.map g.layer)) :=
    follows_addLate path layout.declared.layers
  rw [← g.layers_type] at late
  exact late.bind fun _ _ _ => .pure trivial

/-! ### Relations -/

/-- A link table is joined as before. -/
theorem exists_linkAlias_given {scope : Scope} {f : FieldModel} {link : LinkTable}
    {childPath : String} {a : Alias} (h : linkAlias scope f link childPath = .ok a) :
    ∃ b, linkAlias (g.scope scope) (g.field f) link childPath = .ok b ∧
      ∀ hs, AliasGiven g hs a b := by
  obtain ⟨id, key, made⟩ := ok_bind.mp h
  cases made
  have key' : singleKey f.owner (g.scope scope).ownerIds = .ok (g.field id) := by
    show singleKey f.owner (scope.ownerIds.map g.field) = _
    rw [g.singleKey_given, key]
    rfl
  refine ⟨_, ok_bind.mpr ⟨_, key', rfl⟩, fun hs => ?_⟩
  exact {
    path := rfl
    table := rfl
    role := rfl
    relation := rfl
    join := .same (.inr rfl)
    columns := rfl
    levels := rfl }

/-- A condition that is given can be anchored. -/
theorem exists_relationCondition_given (readable : g.Readable) {scope : Scope} {f : FieldModel}
    {target : TypeModel} {table childPath : String} {c : Condition}
    (h : relationCondition scope f target table childPath = .ok c) :
    ∃ c', relationCondition scope (g.field f) target table childPath = .ok c' := by
  -- If none is given the field is as it was; one that is given can be read, and what can be read can
  -- be anchored.
  cases given : g f.owner f.name with
  | none =>
    have same : g.field f = f := by
      unfold Conditions.field
      rw [given, Option.none_or]
    exact ⟨c, by rw [same]; exact h⟩
  | some text =>
    obtain ⟨ls, read⟩ := readable _ _ _ given
    have custom : (g.field f).joinCondition = some text := by
      unfold Conditions.field
      rw [given, Option.some_or]
    unfold relationCondition
    simp only [custom]
    rw [rebase_eq read]
    exact ⟨_, rfl⟩

/-- A relation after its link table. -/
theorem follows_joined {walk walk' : Scope → FieldModel → Walk Members} (readable : g.Readable)
    (follows : WalkFollows g walk walk') {scope : Scope} {f : FieldModel}
    (there : (scope.entityPath, scope.levelAlias) ∈ hs)
    (linked : relationKind f = .toManyLinked →
      (linkPath (scope.childPath f), linkPath (scope.childPath f)) ∈ hs)
    (target : TypeModel) (layout : Layout) :
    Follows g hs Anyhow
      (liftM (relationCondition scope f target layout.main.table.name (scope.childPath f)) >>=
        fun condition => walkEntity walk (scope.childPath f) (scope.childPath f) scope.walking layout
          (some ⟨f, relationKind f, relationJoin scope f condition⟩) >>= fun child =>
        pure (Members.relation f (relationKind f) child.head child.members .nil))
      (liftM (relationCondition (g.scope scope) (g.field f) (g.type target) layout.main.table.name
        (scope.childPath f)) >>=
        fun condition => walkEntity walk' (scope.childPath f) (scope.childPath f) scope.walking
          (g.layout layout) (some ⟨g.field f, relationKind f, relationJoin scope f condition⟩) >>=
        fun child => pure (Members.relation (g.field f) (relationKind f) child.head child.members .nil)) := by
  -- Both walks go on with the condition of their field, so both conditions are kept for the table.
  have conditions : Follows g hs
      (fun c c' => relationCondition scope f target layout.main.table.name (scope.childPath f) = .ok c ∧
        relationCondition scope (g.field f) target layout.main.table.name (scope.childPath f) = .ok c')
      (liftM (relationCondition scope f target layout.main.table.name (scope.childPath f)))
      (liftM (relationCondition (g.scope scope) (g.field f) (g.type target) layout.main.table.name
        (scope.childPath f))) := by
    apply Follows.lift
    intro c has
    obtain ⟨c', given⟩ := exists_relationCondition_given readable has
    refine ⟨c', ?_, has, given⟩
    rw [g.relationCondition_given, given]
  apply conditions.bind
  rintro c c' ⟨has, given⟩
  refine Follows.bind (R := Anyhow) ?_ fun _ _ _ => .pure trivial
  refine follows_walkEntity follows _ _ _ _ ?_ ?_
  · rfl
  intro more sub
  exact {
    path := rfl
    table := rfl
    role := rfl
    relation := rfl
    join := by
      -- The limit on the joined table comes from its layout and is the same.
      have same := entityRestriction_given (g := g) (scope.childPath f) layout
      have second : (entityAlias (scope.childPath f) (g.layout layout)
          (some ⟨g.field f, relationKind f, relationJoin scope f c'⟩)).join =
          some { relationJoin scope f c' with
            restriction := entityRestriction (scope.childPath f) layout } := by
        rw [← same]
        rfl
      rw [second]
      exact .related (sub there) (fun kind => sub (linked kind)) rfl rfl has given
    columns := rfl
    levels := by
      show (sideLevels (scope.childPath f) (g.layout layout)).map (·.path) = _
      rw [sideLevels_given, List.map_map]
      rfl }

/-- What is done first where there is a link table. -/
theorem follows_linked {kind : RelationKind} {link : Option LinkTable} {x : LinkTable → Walk α}
    {y : LinkTable → Walk β} {x₂ : Walk α} {y₂ : Walk β}
    (linked : ∀ l, Follows g hs R (x l) (y l)) :
    ((kind = .toManyLinked → link = none) → Follows g hs R x₂ y₂) →
    Follows g hs R (match kind, link with | .toManyLinked, some l => x l | _, _ => x₂)
      (match kind, link with | .toManyLinked, some l => y l | _, _ => y₂) := by
  intro unlinked
  cases kind <;> cases link
  case toManyLinked.some l => exact linked l
  case toManyLinked.none => exact unlinked fun _ => rfl
  all_goals exact unlinked fun other => nomatch other

theorem follows_walkRelation {s : Schema} {walk walk' : Scope → FieldModel → Walk Members}
    (readable : g.Readable) (follows : WalkFollows g walk walk') {scope : Scope} {f : FieldModel}
    (there : (scope.entityPath, scope.levelAlias) ∈ hs) (target : TypeModel) :
    Follows g hs Anyhow (walkRelation s walk scope f target)
      (walkRelation (g.schema s) walk' (g.scope scope) (g.field f) (g.type target)) := by
  unfold walkRelation
  have laid : Follows g hs (fun l l' => l' = g.layout l) (liftM (s.layout target))
      (liftM ((g.schema s).layout (g.type target))) := by
    refine .lift fun l lays => ⟨g.layout l, ?_, rfl⟩
    rw [layout_given, lays]
    rfl
  apply laid.bind
  rintro layout _ rfl
  refine follows_linked (fun link => ?_) fun none => ?_
  · have table : Follows g hs
        (fun a b => a.path = linkPath (scope.childPath f) ∧ a.role = .link ∧ ∀ hs, AliasGiven g hs a b)
        (liftM (linkAlias scope f link (scope.childPath f)))
        (liftM (linkAlias (g.scope scope) (g.field f) link (scope.childPath f))) := by
      apply Follows.lift
      intro a made
      obtain ⟨b, made', same⟩ := exists_linkAlias_given (g := g) made
      obtain ⟨id, -, result⟩ := ok_bind.mp made
      cases result
      exact ⟨b, made', rfl, rfl, same⟩
    apply table.bind
    rintro a b ⟨path, role, same⟩
    -- A link table is one of the tables that can be hung off from now on.
    have single : ∀ a : Alias, addAlias a = addAliases [a] := by
      intro a
      rw [addAliases, addAliases, bind_pure_unit]
    have home : (linkPath (scope.childPath f), linkPath (scope.childPath f)) ∈ homes [a] := by
      have own : (a.path, a.path) ∈ a.homes := by
        unfold Alias.homes
        rw [role]
        exact List.mem_cons_self
      rw [← path]
      exact List.mem_append_left _ own
    rw [single, single]
    apply follows_addAliases (.cons (same _) .nil)
    exact follows_joined readable follows (List.mem_append_left _ there)
      (fun _ => List.mem_append_right _ home) target layout
  · -- A relation without a link table is of another kind.
    have direct : relationKind f ≠ .toManyLinked := by
      intro kind
      have unlinked := none kind
      cases many : f.cardinality.isMany with
      | false => simp [relationKind, many] at kind
      | true => simp [relationKind, many, unlinked] at kind
    exact follows_joined readable follows there (fun kind => absurd kind direct) target layout

/-! ### Any field -/

/-- The type that a field leads to. -/
theorem follows_enter {s : Schema} (scope : Scope) (f : FieldModel) (name : String) :
    Follows g hs (fun t t' => t' = g.type t) (enter s scope f name)
      (enter (g.schema s) (g.scope scope) (g.field f) name) := by
  have described : Follows g hs (fun t t' => t' = g.type t) (liftM (s.describe name))
      (liftM ((g.schema s).describe name)) := by
    refine .lift fun t describes => ⟨g.type t, ?_, rfl⟩
    rw [describe_given, describes]
    rfl
  unfold enter
  apply described.bind
  rintro t _ rfl
  exact .guard Iff.rfl (.pure rfl)

theorem follows_walkFieldBy {s : Schema} (readable : g.Readable)
    {deeper deeper' : Option (Scope → FieldModel → Walk Members)}
    (follows : ∀ walk, deeper = some walk → ∃ walk', deeper' = some walk' ∧ WalkFollows g walk walk') :
    WalkFollows g (walkFieldBy s deeper) (walkFieldBy (g.schema s) deeper') := by
  intro hs scope f there
  -- No walk goes below this field if none is allowed to.
  have stops : ∀ (e : Error) {y : Walk Members}, Follows g hs Anyhow (throw e : Walk Members) y := by
    intro e y d d' m d₁ _ _ run
    exact (not_yields_throw run).elim
  unfold walkFieldBy
  have cls : (g.field f).cls = f.cls := rfl
  rw [cls]
  cases f.cls with
  | scalar type => exact follows_walkColumn scope f
  | enumeration name => exact follows_walkColumn scope f
  | embedded name =>
    apply (follows_enter scope f name).bind
    rintro target _ rfl
    cases deeper with
    | none => exact stops _
    | some walk =>
      obtain ⟨walk', rfl, below⟩ := follows walk rfl
      refine Follows.bind (R := Anyhow) ?_ fun _ _ _ => .pure trivial
      show Follows g hs Anyhow (walkFields _ target.allFields)
        (walkFields (walk' (g.scope (scope.inside f target))) (g.type target).allFields)
      rw [g.allFields_type]
      apply follows_walkFields
      intro f' _
      exact below hs (scope.inside f target) f' there
  | relation name =>
    apply (follows_enter scope f name).bind
    rintro target _ rfl
    cases deeper with
    | none => exact stops _
    | some walk =>
      obtain ⟨walk', rfl, below⟩ := follows walk rfl
      exact follows_walkRelation readable below there target

theorem follows_walkField {s : Schema} (readable : g.Readable) (depth : Nat) :
    WalkFollows g (walkField s depth) (walkField (g.schema s) depth) := by
  induction depth with
  | zero => exact follows_walkFieldBy readable fun _ h => nomatch h
  | succ depth ih =>
    apply follows_walkFieldBy readable
    intro walk same
    exact ⟨_, rfl, Option.some.inj same ▸ ih⟩

end

/-! ## Plans -/

/-- A plan and one with other conditions. -/
structure Given (g : Conditions) (p p' : Plan) : Prop where
  aliases : List.Forall₂ (AliasGiven g (homes p.aliases)) p.aliases p'.aliases
  select : p'.select = p.select
  extraJoins : p'.extraJoins = p.extraJoins
  groupBy : p'.groupBy = p.groupBy
  restriction : p'.restriction = p.restriction

/-- **A plan is built with the conditions that are given.** It is the plan of the schema but for the
conditions of relations. -/
theorem build_given {s : Schema} {name : String} {p : Plan} (built : Plan.build s name = .ok p)
    {g : Conditions} (readable : g.Readable) :
    ∃ p', Plan.build (g.schema s) name = .ok p' ∧ Given g p p' := by
  obtain ⟨declared, described, rest⟩ := ok_bind.mp built
  obtain ⟨layout, laid, run⟩ := ok_bind.mp rest
  obtain ⟨⟨root, d⟩, walked, result⟩ := ok_bind.mp run
  cases result
  have empty : Draft.Given g {} {} := ⟨.nil, rfl, rfl, rfl, rfl, rfl, rfl⟩
  -- No relation leads to the root, so it is joined as before.
  have root_given : ∀ more, [] ⊆ more → AliasGiven g more (entityAlias layout.main.table.name layout none)
      (entityAlias layout.main.table.name (g.layout layout) none) := by
    intro more _
    exact {
      path := rfl
      table := rfl
      role := rfl
      relation := rfl
      join := .same (.inl rfl)
      columns := rfl
      levels := by
        show (sideLevels layout.main.table.name (g.layout layout)).map (·.path) = _
        rw [sideLevels_given, List.map_map]
        rfl }
  have follows := follows_walkEntity (follows_walkField (s := s) readable s.size)
    layout.main.table.name "" [] layout rfl root_given
  obtain ⟨root', d', walked', -, given, -⟩ := follows empty (List.nil_subset _) walked
  have described' : (g.schema s).describe name = .ok (g.type declared) := by
    rw [describe_given, described]
    rfl
  have laid' : (g.schema s).layout (g.type declared) = .ok (g.layout layout) := by
    rw [layout_given, laid]
    rfl
  refine ⟨planOf root' d', ?_, ?_⟩
  · refine ok_bind.mpr ⟨_, described', ok_bind.mpr ⟨_, laid', ok_bind.mpr ⟨(root', d'), ?_, rfl⟩⟩⟩
    rw [size_given]
    exact walked'
  · exact {
      aliases := given.aliases
      select := given.select
      extraJoins := given.lateJoins
      groupBy := by
        show d'.groupBy ++ d'.lateGroups.map .raw = d.groupBy ++ d.lateGroups.map .raw
        rw [given.groupBy, given.lateGroups]
      restriction := given.restriction }

end Orm.Plan
