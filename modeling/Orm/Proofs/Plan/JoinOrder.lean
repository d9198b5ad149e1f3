import Orm.Proofs.Plan.Derivation

/-!
# `Proofs.Plan.JoinOrder` — the tables of a plan stand in a join order

A statement joins the tables of a plan one after the other, so each may only speak of itself and of
those before it. `Draft.Orderly` says so of a draft. Every step of a walk keeps it, given that the
step is `Ready`: the table it works in is there, and the table that it hangs off is there.

## Contents
- **Order.** `Alias.Follows`, `InOrder`, `Draft.Orderly`, `Members.PlacedIn`.
- **Steps.** What each function on drafts keeps.
- **Walks.** `Task.Ready`, `Derives.orderly`.
- **Plans.** `JoinOrder`, `find?_of_build`, `joinOrder_of_build`.
-/

namespace Orm.Plan

open Sql Schema

/-! ## Order -/

/-- The columns that a condition compares; a text is left to its author. -/
def Condition.refs : Condition → List ColumnRef
  | .columns pairs => pairs.flatMap fun p => [p.1, p.2]
  | .raw _ => []

theorem mem_refs_pair {a b r : ColumnRef} (h : r ∈ (Condition.columns [(a, b)]).refs) :
    r = a ∨ r = b := by
  simpa [Condition.refs] using h

/-- The paths that an expression names; a text is left to its author. -/
def Expression.paths : Expression → List String
  | .column ref => [ref.path]
  | .raw _ => []

theorem paths_column {paths : List String} {path : String} (column : String) (taken : path ∈ paths) :
    ∀ p ∈ (Expression.column ⟨path, column⟩).paths, p ∈ paths := by
  intro p hp
  rw [List.mem_singleton.mp hp]
  exact taken

/-- A table is joined to one of those before it, on columns of its own and of theirs, and its limit
is one on itself. -/
structure Join.Reaches (before : List String) (path : String) (j : Join) : Prop where
  parent : j.parent ∈ before
  condition : ∀ r ∈ j.condition.refs, r.path = path ∨ r.path ∈ before
  restriction : ∀ r, j.restriction = some r → r.column.path = path

/-- A table may come after others: as the first without a join, and else with one that reaches
them. -/
def Alias.Follows (before : List String) (a : Alias) : Prop :=
  match a.join with
  | none => before = []
  | some j => j.Reaches before a.path

/-- Each table may come after those before it. -/
def InOrder : List String → List Alias → Prop
  | _, [] => True
  | before, a :: rest => a.Follows before ∧ InOrder (before ++ [a.path]) rest

theorem inOrder_append {before : List String} {as bs : List Alias} :
    InOrder before (as ++ bs) ↔
      InOrder before as ∧ InOrder (before ++ as.map (·.path)) bs := by
  induction as generalizing before with
  | nil => simp [InOrder]
  | cons a rest ih =>
    show a.Follows before ∧ InOrder (before ++ [a.path]) (rest ++ bs) ↔ _
    rw [ih, List.append_assoc, ← and_assoc]
    rfl

/-- In an order, the table at a position may come after those before the position. -/
theorem InOrder.follows {before : List String} {as : List Alias} (h : InOrder before as) {i : Nat}
    {a : Alias} (at_i : as[i]? = some a) :
    a.Follows (before ++ (as.take i).map (·.path)) := by
  induction as generalizing before i with
  | nil => simp at at_i
  | cons b rest ih =>
    cases i with
    | zero =>
      obtain rfl : b = a := by simpa using at_i
      simpa using h.1
    | succ i =>
      have later := ih h.2 (by simpa using at_i)
      simpa using later

/-- Columns of fields have no part in the order. -/
theorem InOrder.map {before : List String} {as : List Alias} (h : InOrder before as)
    {f : Alias → Alias} (path : ∀ a, (f a).path = a.path) (join : ∀ a, (f a).join = a.join) :
    InOrder before (as.map f) := by
  induction as generalizing before with
  | nil => trivial
  | cons a rest ih =>
    refine ⟨?_, ?_⟩
    · unfold Alias.Follows
      rw [join, path]
      exact h.1
    · rw [path]
      exact ih h.2

/-- A draft whose tables stand in order, and where all else names tables that are there. -/
structure Draft.Orderly (d : Draft) : Prop where
  distinct : d.paths.Nodup
  ordered : InOrder [] d.aliases
  levels : ∀ a ∈ d.aliases, ∀ l ∈ a.levels, l ∈ d.paths
  select : ∀ item ∈ d.select, ∀ path ∈ item.expression.paths, path ∈ d.paths
  groupBy : ∀ e ∈ d.groupBy, ∀ path ∈ e.paths, path ∈ d.paths
  restriction : ∀ r, d.restriction = some r → d.paths.head? = some r.column.path

/-- The levels of all entities that members lead to are among some paths. -/
def Members.PlacedIn (paths : List String) (m : Members) : Prop :=
  ∀ e ∈ m.entities, ∀ l ∈ e.1.levels, l.path ∈ paths

/-! ## Steps -/

namespace Draft

variable {d : Draft}

theorem Orderly.selecting (h : d.Orderly) {e : Expression} (label : String)
    (named : ∀ path ∈ e.paths, path ∈ d.paths) : (d.selecting e label).Orderly where
  distinct := h.distinct
  ordered := h.ordered
  levels := h.levels
  select := by
    unfold Draft.selecting offer
    split
    · exact h.select
    · intro item hi
      rcases List.mem_append.mp hi with old | new
      · exact h.select item old
      · obtain rfl := List.mem_singleton.mp new
        exact named
  groupBy := h.groupBy
  restriction := h.restriction

theorem Orderly.grouping (h : d.Orderly) (wanted : Bool) {e : Expression}
    (named : ∀ path ∈ e.paths, path ∈ d.paths) : (d.grouping wanted e).Orderly where
  distinct := h.distinct
  ordered := h.ordered
  levels := h.levels
  select := h.select
  groupBy := by
    unfold Draft.grouping
    split
    · intro g hg
      rcases List.mem_append.mp hg with old | new
      · exact h.groupBy g old
      · obtain rfl := List.mem_singleton.mp new
        exact named
    · exact h.groupBy
  restriction := h.restriction

theorem Orderly.registering (h : d.Orderly) (path fieldPath column : String) :
    (d.registering path fieldPath column).Orderly := by
  have join_eq : ∀ a : Alias, (a.withColumn fieldPath column).join = a.join := fun a => by
    unfold Alias.withColumn
    split <;> rfl
  have levels_eq : ∀ a : Alias, (a.withColumn fieldPath column).levels = a.levels := fun a => by
    unfold Alias.withColumn
    split <;> rfl
  constructor
  · rw [paths_registering]
    exact h.distinct
  · refine h.ordered.map (fun a => ?_) (fun a => ?_)
    · split
      · exact a.path_withColumn fieldPath column
      · rfl
    · split
      · exact join_eq a
      · rfl
  · rw [paths_registering]
    intro a ha l hl
    obtain ⟨b, hb, rfl⟩ := List.mem_map.mp ha
    split at hl
    · rw [levels_eq] at hl
      exact h.levels b hb l hl
    · exact h.levels b hb l hl
  · rw [paths_registering]
    exact h.select
  · rw [paths_registering]
    exact h.groupBy
  · rw [paths_registering]
    exact h.restriction

theorem Orderly.withKeys {path : String} (ids : List FieldModel) {d : Draft} (h : d.Orderly)
    (taken : path ∈ d.paths) : (d.withKeys path ids).Orderly := by
  induction ids generalizing d with
  | nil => exact h
  | cons id rest ih =>
    have selected : (d.selecting (.column ⟨path, id.column⟩) (path ++ "." ++ id.name)).Orderly :=
      h.selecting _ (paths_column _ taken)
    refine ih (selected.registering path id.name id.column) ?_
    rw [paths_registering]
    exact taken

/-- Tables may be added where each may come after those before it and names levels that are among
them all. -/
theorem Orderly.withAliases (h : d.Orderly) {as : List Alias} (room : d.HasRoom as)
    (ordered : InOrder d.paths as)
    (levels : ∀ a ∈ as, ∀ l ∈ a.levels, l ∈ d.paths ++ as.map (·.path)) :
    (d.withAliases as).Orderly := by
  constructor
  · rw [paths_withAliases, List.nodup_append]
    refine ⟨h.distinct, room.1, ?_⟩
    rintro p old q new rfl
    obtain ⟨a, ha, rfl⟩ := List.mem_map.mp new
    exact room.2 a ha old
  · exact inOrder_append.mpr ⟨h.ordered, ordered⟩
  · rw [paths_withAliases]
    intro a ha l hl
    rcases List.mem_append.mp ha with old | new
    · exact List.mem_append_left _ (h.levels a old l hl)
    · exact levels a new l hl
  · rw [paths_withAliases]
    exact fun item hi path hp => List.mem_append_left _ (h.select item hi path hp)
  · rw [paths_withAliases]
    exact fun e he path hp => List.mem_append_left _ (h.groupBy e he path hp)
  · rw [paths_withAliases]
    intro r hr
    rw [List.head?_append, h.restriction r hr]
    rfl

theorem Orderly.discriminating (h : d.Orderly) (path : String) (layout : Layout)
    (taken : path ∈ d.paths) : (d.discriminating path layout).Orderly := by
  unfold Draft.discriminating
  cases layout.discrimination with
  | none => exact h
  | some dis =>
    exact h.selecting _ (paths_column _ taken)

/-- The joins and grouping terms of types have no part in the order. -/
theorem Orderly.late {d' : Draft} (h : d.Orderly) {path : String} {layers : List TypeLayer}
    {u : Unit} (added : Yields (addLate path layers) d u d') : d'.Orderly := by
  obtain ⟨joins, groups, rfl⟩ := late_of_addLate added
  exact ⟨h.distinct, h.ordered, h.levels, h.select, h.groupBy, h.restriction⟩

end Draft

/-! ### The tables of an entity -/

theorem path_of_entityRestriction {path : String} {layout : Layout} {r : Restriction}
    (h : entityRestriction path layout = some r) : r.column.path = path := by
  unfold entityRestriction at h
  obtain ⟨dis, -, found⟩ := Option.bind_eq_some_iff.mp h
  obtain ⟨values, -, rfl⟩ := Option.map_eq_some_iff.mp found
  rfl

/-- What an entity hangs off is there, and its join speaks of that and of the entity. -/
def Attachable (before : List String) (path : String) : Option Attachment → Prop
  | none => before = []
  | some a => a.join.parent ∈ before ∧ ∀ r ∈ a.join.condition.refs, r.path = path ∨ r.path ∈ before

theorem follows_entityAlias {before : List String} {path : String} (layout : Layout)
    {attachment : Option Attachment} (h : Attachable before path attachment) :
    (entityAlias path layout attachment).Follows before := by
  cases attachment with
  | none => exact h
  | some a => exact ⟨h.1, h.2, fun _ found => path_of_entityRestriction found⟩

/-- The other levels of an entity are joined to its main level, key to key. -/
theorem inOrder_levelAliases {before : List String} {path : String} (taken : path ∈ before)
    (ids : List FieldModel) (isRoot : Bool) (ps : List PlacedLevel) :
    InOrder before (ps.map (levelAlias path ids isRoot)) := by
  induction ps generalizing before with
  | nil => trivial
  | cons p rest ih =>
    refine ⟨⟨taken, ?_, fun _ none => by cases none⟩, ih (List.mem_append_left _ taken)⟩
    intro r hr
    obtain ⟨pair, hp, hr⟩ := List.mem_flatMap.mp hr
    obtain ⟨id, -, rfl⟩ := List.mem_map.mp hp
    rcases List.mem_cons.mp hr with rfl | hr
    · exact .inl rfl
    · rw [List.mem_singleton.mp hr]
      exact .inr taken

theorem inOrder_entityAliases {before : List String} {path : String} (layout : Layout)
    {attachment : Option Attachment} (h : Attachable before path attachment) :
    InOrder before (entityAliases path layout attachment) :=
  ⟨follows_entityAlias layout h,
    inOrder_levelAliases (List.mem_append_right _ List.mem_cons_self) _ _ _⟩

/-- The tables of an entity are those of its levels. -/
theorem mem_paths_entityAliases {path : String} {layout : Layout}
    (attachment : Option Attachment) {p : PlacedLevel} (h : p ∈ placedLevels path layout) :
    p.path ∈ (entityAliases path layout attachment).map (·.path) := by
  have beside : ∀ {q}, q ∈ sideLevels path layout →
      q.path ∈ (entityAliases path layout attachment).map (·.path) := fun hq =>
    List.mem_cons_of_mem _ (List.mem_map.mpr ⟨_, List.mem_map.mpr ⟨_, hq, rfl⟩, rfl⟩)
  unfold placedLevels at h
  rcases List.mem_append.mp h with above | h
  · exact beside (List.mem_append_left _ above)
  rcases List.mem_cons.mp h with rfl | below
  · exact List.mem_cons_self
  · exact beside (List.mem_append_right _ below)

theorem levels_entityAliases {path : String} {layout : Layout} {attachment : Option Attachment}
    {a : Alias} (ha : a ∈ entityAliases path layout attachment) {l : String} (hl : l ∈ a.levels) :
    l ∈ (entityAliases path layout attachment).map (·.path) := by
  rcases List.mem_cons.mp ha with rfl | side
  · obtain ⟨p, hp, rfl⟩ := List.mem_map.mp hl
    refine mem_paths_entityAliases attachment ?_
    rcases List.mem_append.mp hp with above | below
    · exact List.mem_append_left _ above
    · exact List.mem_append_right _ (List.mem_cons_of_mem _ below)
  · obtain ⟨p, -, rfl⟩ := List.mem_map.mp side
    cases hl

theorem Draft.Orderly.opened {d : Draft} (h : d.Orderly) {path : String} {layout : Layout}
    {attachment : Option Attachment} (room : d.HasRoom (entityAliases path layout attachment))
    (ready : Attachable d.paths path attachment) : (d.opened path layout attachment).Orderly := by
  have added : (d.withAliases (entityAliases path layout attachment)).Orderly :=
    h.withAliases room (inOrder_entityAliases layout ready) fun _ ha _ hl =>
      List.mem_append_right _ (levels_entityAliases ha hl)
  have limited : ((d.limiting path layout attachment).withAliases
      (entityAliases path layout attachment)).Orderly := by
    refine ⟨added.distinct, added.ordered, added.levels, added.select, added.groupBy, ?_⟩
    intro r hr
    cases attachment with
    | none =>
      have first : d.paths = [] := ready
      rw [path_of_entityRestriction hr, Draft.paths_withAliases]
      show (d.paths ++ _).head? = _
      rw [first]
      rfl
    | some a => exact added.restriction r hr
  have told := limited.discriminating path layout <| by
    rw [Draft.paths_withAliases]
    exact List.mem_append_right _ List.mem_cons_self
  exact ⟨told.distinct, told.ordered, told.levels, told.select, told.groupBy, told.restriction⟩

/-! ### The join of a relation -/

theorem Draft.Orderly.linked {d d' : Draft} (h : d.Orderly) {scope : Scope} {f : FieldModel}
    (linked : Linked scope f d d') (taken : scope.levelAlias ∈ d.paths) : d'.Orderly := by
  unfold Linked at linked
  split at linked
  next link _ _ =>
    obtain ⟨a, made, free, rfl⟩ := linked
    unfold linkAlias at made
    obtain ⟨id, -, result⟩ := ok_bind.mp made
    cases result
    have reaches : ∀ r ∈ (Condition.columns [(⟨linkPath (scope.childPath f),
        link.ownerColumn.getD (scope.ownerTable ++ "_id")⟩, ⟨scope.levelAlias, id.column⟩)]).refs,
        r.path = linkPath (scope.childPath f) ∨ r.path ∈ d.paths := fun r hr =>
      (mem_refs_pair hr).imp (congrArg _) fun same => by rw [same]; exact taken
    refine h.withAliases ⟨by simp, ?_⟩ ⟨⟨taken, reaches, nofun⟩, trivial⟩ ?_
    · intro b hb
      rw [List.mem_singleton.mp hb]
      exact free
    · intro b hb l hl
      rw [List.mem_singleton.mp hb] at hl
      cases hl
  next => rw [linked]; exact h

/-- The link table of a relation is there when its target is joined. -/
theorem mem_paths_of_linked {d d' : Draft} {scope : Scope} {f : FieldModel}
    (linked : Linked scope f d d') (kind : relationKind f = .toManyLinked) :
    linkPath (scope.childPath f) ∈ d'.paths := by
  obtain ⟨link, hasLink⟩ : ∃ link, f.link = some link := by
    unfold relationKind at kind
    split at kind
    · cases kind
    · split at kind
      next some => exact Option.isSome_iff_exists.mp some
      next => cases kind
  unfold Linked at linked
  rw [kind, hasLink] at linked
  obtain ⟨a, made, free, rfl⟩ := linked
  unfold linkAlias at made
  obtain ⟨id, -, result⟩ := ok_bind.mp made
  cases result
  rw [Draft.paths_withAliases]
  exact List.mem_append_right _ List.mem_cons_self

/-- The target of a relation is joined on columns of its own and of what it hangs off. -/
theorem refs_relationCondition {scope : Scope} {f : FieldModel} {target : TypeModel}
    {table : String} {condition : Condition}
    (h : relationCondition scope f target table (scope.childPath f) = .ok condition) :
    ∀ r ∈ condition.refs, r.path = scope.childPath f ∨
      r.path = (relationJoin scope f condition).parent := by
  unfold relationCondition at h
  split at h
  next custom _ =>
    rw [map_eq_pure_bind] at h
    obtain ⟨sql, -, result⟩ := ok_bind.mp h
    cases result
    exact nofun
  next =>
    unfold inferredCondition at h
    unfold relationJoin
    -- Each kind compares one column of the target with one of what it hangs off.
    cases kind : relationKind f with
    | toOne =>
      rw [kind] at h
      obtain ⟨id, -, result⟩ := ok_bind.mp h
      cases result
      exact fun r hr => (mem_refs_pair hr).imp (congrArg _) (congrArg _)
    | toManyDirect =>
      rw [kind] at h
      obtain ⟨id, -, result⟩ := ok_bind.mp h
      cases result
      exact fun r hr => (mem_refs_pair hr).imp (congrArg _) (congrArg _)
    | toManyLinked =>
      rw [kind] at h
      obtain ⟨id, -, result⟩ := ok_bind.mp h
      cases result
      exact fun r hr => (mem_refs_pair hr).imp (congrArg _) (congrArg _)

theorem attachable_relation {d d₁ : Draft} {scope : Scope} {f : FieldModel} {target : TypeModel}
    {table : String} {condition : Condition} (linked : Linked scope f d d₁)
    (taken : scope.levelAlias ∈ d.paths)
    (joined : relationCondition scope f target table (scope.childPath f) = .ok condition) :
    Attachable d₁.paths (scope.childPath f)
      (some ⟨f, relationKind f, relationJoin scope f condition⟩) := by
  have parent : (relationJoin scope f condition).parent ∈ d₁.paths := by
    unfold relationJoin
    split
    next kind => exact mem_paths_of_linked linked kind
    next => exact linked.grows.mem_paths taken
  refine ⟨parent, fun r hr => ?_⟩
  rcases refs_relationCondition joined r hr with own | other
  · exact .inl own
  · exact .inr (other ▸ parent)

/-! ## Walks -/

/-- What a part of the walk counts on: the tables that it works in are there, and an entity has what
it hangs off. -/
def Task.Ready (d : Draft) : Task → Prop
  | .field scope _ => scope.levelAlias ∈ d.paths
  | .fields scope _ => scope.levelAlias ∈ d.paths
  | .levels _ ps => ∀ p ∈ ps, p.path ∈ d.paths
  | .entity path _ _ _ attachment => Attachable d.paths path attachment

theorem Members.PlacedIn.mono {paths more : List String} {m : Members} (h : m.PlacedIn paths)
    (sub : paths ⊆ more) : m.PlacedIn more :=
  fun e he l hl => sub (h e he l hl)

theorem Members.PlacedIn.append {paths : List String} {m n : Members} (hm : m.PlacedIn paths)
    (hn : n.PlacedIn paths) : (m ++ n).PlacedIn paths := by
  intro e he
  rw [Members.entities_append] at he
  rcases List.mem_append.mp he with left | right
  · exact hm e left
  · exact hn e right

theorem placedIn_entityHead {path : String} {layout : Layout} (d : Draft)
    (attachment : Option Attachment) (index : Nat) :
    ∀ l ∈ (entityHead path layout index).levels,
      l.path ∈ (d.opened path layout attachment).paths := by
  intro l hl
  obtain ⟨p, hp, rfl⟩ := List.mem_map.mp hl
  rw [Draft.paths_opened]
  exact List.mem_append_right _ (mem_paths_entityAliases attachment hp)

theorem Task.Ready.opened {d : Draft} {path relationBase : String} {walking : List String}
    {layout : Layout} {attachment : Option Attachment} :
    (Task.levels ⟨path, relationBase, layout.declared.idFields, walking⟩
      (placedLevels path layout)).Ready (d.opened path layout attachment) := by
  intro p hp
  rw [Draft.paths_opened]
  exact List.mem_append_right _ (mem_paths_entityAliases attachment hp)

/-- **The order is kept by every part of the walk**, and the entities it leads to are among the
tables it leaves. -/
theorem Derives.orderly {s : Schema} {t : Task} {d d' : Draft} {m : Members}
    {asked : List SelectItem} (h : Derives s t d m asked d') (ready : t.Ready d) (orderly : d.Orderly) :
    d'.Orderly ∧ m.PlacedIn d'.paths := by
  have textual : ∀ {text : String} {paths : List String},
      ∀ p ∈ (Expression.raw text).paths, p ∈ paths := fun _ hp => by cases hp
  have bare : ∀ {paths} {f : FieldModel} {label : String},
      (Members.column f label .nil).PlacedIn paths := fun _ he => by cases he
  -- Both facts go through the induction together, since the levels of a child are placed by the walk
  -- that opens its tables.
  induction h with
  | key => exact ⟨orderly.grouping _ (paths_column _ ready), bare⟩
  | @column scope f d =>
    have registered := orderly.registering scope.levelAlias (scope.fieldBase ++ f.name)
      (scope.columnPrefix ++ f.column)
    have taken := paths_column (scope.columnPrefix ++ f.column)
      ((Draft.grows_registering scope.levelAlias (scope.fieldBase ++ f.name)
        (scope.columnPrefix ++ f.column)).mem_paths ready)
    exact ⟨(registered.grouping _ taken).selecting _ taken, bare⟩
  | computed => exact ⟨(orderly.grouping _ textual).selecting _ textual, bare⟩
  | embedded _ _ _ _ ih =>
    obtain ⟨orderly', placed⟩ := ih ready orderly
    refine ⟨orderly', fun e he => ?_⟩
    rw [Members.entities_embedded] at he
    exact placed e he
  | relation _ _ _ _ linked joined walk ih =>
    have attachable := attachable_relation linked ready joined
    obtain ⟨orderly', placed⟩ := ih attachable (orderly.linked linked ready)
    refine ⟨orderly', fun e he => ?_⟩
    rw [Members.entities_relation] at he
    -- The child has opened its own tables; what is below it has been placed by its walk.
    rcases List.mem_cons.mp he with rfl | below
    · cases walk with
      | entity _ _ levels late =>
        intro l hl
        exact (levels.grows.trans (Draft.grows_late late)).mem_paths
          (placedIn_entityHead _ _ _ l hl)
    · exact placed e below
  | done => exact ⟨orderly, fun _ he => by cases he⟩
  | skip _ _ ih => exact ih ready orderly
  | next _ first rest here later =>
    obtain ⟨orderly₁, placed₁⟩ := here ready orderly
    obtain ⟨orderly₂, placed₂⟩ := later (first.grows.mem_paths ready) orderly₁
    exact ⟨orderly₂, (placed₁.mono rest.grows.paths.subset).append placed₂⟩
  | bottom => exact ⟨orderly, fun _ he => by cases he⟩
  | @level place p ps d d₁ d' _ _ _ _ first rest here later =>
    have taken := ready p List.mem_cons_self
    have keyed := orderly.withKeys place.ids taken
    have grown := Draft.grows_withKeys p.path place.ids d
    obtain ⟨orderly₁, placed₁⟩ := here (grown.mem_paths taken) keyed
    obtain ⟨orderly₂, placed₂⟩ := later (fun p hp => (grown.trans first.grows).mem_paths
      (ready p (List.mem_cons_of_mem _ hp))) orderly₁
    exact ⟨orderly₂, (placed₁.mono rest.grows.paths.subset).append placed₂⟩
  | entity _ room walk late ih =>
    obtain ⟨orderly₁, placed⟩ := ih Task.Ready.opened (orderly.opened room ready)
    exact ⟨orderly₁.late late, placed.mono (Draft.grows_late late).paths.subset⟩

/-! ## Plans -/

/-- The tables of a plan stand in a join order. -/
structure JoinOrder (p : Plan) : Prop where
  /-- The first table is there, and it is the only one without a join and without a parent. -/
  root : ∃ a, p.aliases[0]? = some a ∧ a.join = none ∧ a.parent? = none
  later : ∀ (i : Nat) (a : Alias), 0 < i → p.aliases[i]? = some a → a.join ≠ none ∧ a.parent? ≠ none
  /-- No two tables have one path. -/
  distinct : (p.aliases.map (·.path)).Nodup
  /-- A path leads to the table at its position. -/
  indexed : ∀ (i : Nat) (a : Alias), p.aliases[i]? = some a →
    p.aliases.findIdx? (·.path == a.path) = some i ∧ p.find? a.path = some a
  /-- The parent of a table stands before it. -/
  parents : ∀ (i : Nat) (a : Alias) (path : String), p.aliases[i]? = some a → a.parent? = some path →
    ∃ (k : Nat) (b : Alias), k < i ∧ p.aliases[k]? = some b ∧ b.path = path
  /-- A condition that is not a text compares columns of its table and of those before it. -/
  conditions : ∀ (i : Nat) (a : Alias) (j : Join), p.aliases[i]? = some a → a.join = some j →
    ∀ r ∈ j.condition.refs, ∃ (k : Nat) (b : Alias), k ≤ i ∧ p.aliases[k]? = some b ∧ b.path = r.path
  /-- A limit is one on the table that it is for: that of a join on the joined table, that of the
  plan on the first. -/
  restrictions : ∀ (i : Nat) (a : Alias) (j : Join) (r : Restriction), p.aliases[i]? = some a →
    a.join = some j → j.restriction = some r → r.column.path = a.path
  rootRestriction : ∀ r, p.restriction = some r →
    ∃ a, p.aliases[0]? = some a ∧ r.column.path = a.path
  /-- All else names tables that are there: levels of tables and of entities, what is selected and
  what is grouped by. -/
  aliasLevels : ∀ a ∈ p.aliases, ∀ l ∈ a.levels, ∃ b, p.find? l = some b
  entityLevels : ∀ e ∈ p.entities, ∀ l ∈ e.head.levels, ∃ b, p.find? l.path = some b
  select : ∀ item ∈ p.select, ∀ r, item.expression = .column r → ∃ b, p.find? r.path = some b
  groupBy : ∀ e ∈ p.groupBy, ∀ r, e = .column r → ∃ b, p.find? r.path = some b

/-- A path that is taken before a position is that of a table before it. -/
theorem exists_of_mem_take {as : List Alias} {i : Nat} {path : String}
    (h : path ∈ (as.take i).map (·.path)) :
    ∃ (k : Nat) (b : Alias), k < i ∧ as[k]? = some b ∧ b.path = path := by
  obtain ⟨b, hb, same⟩ := List.mem_map.mp h
  obtain ⟨k, hk, rfl⟩ := List.mem_take_iff_getElem.mp hb
  have bound := Nat.lt_min.mp hk
  exact ⟨k, as[k], bound.1, List.getElem?_eq_getElem bound.2, same⟩

theorem findIdx?_of_nodup {as : List Alias} (distinct : (as.map (·.path)).Nodup) {i : Nat} {a : Alias}
    (at_i : as[i]? = some a) : as.findIdx? (·.path == a.path) = some i := by
  obtain ⟨hi, rfl⟩ := List.getElem?_eq_some_iff.mp at_i
  refine List.findIdx?_eq_some_iff_getElem.mpr ⟨hi, beq_self_eq_true _, fun k hk same => ?_⟩
  have hk' : k < as.length := Nat.lt_trans hk hi
  have bound : k < (as.map (·.path)).length := by rw [List.length_map]; exact hk'
  have same : (as.map (·.path))[k]? = (as.map (·.path))[i]? := by simpa [hk', hi] using same
  exact absurd ((List.getElem?_inj bound distinct).mp same) (Nat.ne_of_lt hk)

theorem find?_of_nodup {p : Plan} (distinct : (p.aliases.map (·.path)).Nodup) {i : Nat} {a : Alias}
    (at_i : p.aliases[i]? = some a) : p.find? a.path = some a := by
  have found := findIdx?_of_nodup distinct at_i
  rw [List.findIdx?_eq_some_iff_getElem] at found
  obtain ⟨hi, _, first⟩ := found
  obtain ⟨_, rfl⟩ := List.getElem?_eq_some_iff.mp at_i
  exact List.find?_eq_some_iff_getElem.mpr
    ⟨beq_self_eq_true _, i, hi, rfl, fun k hk => by simpa using first k hk⟩

theorem exists_find? {p : Plan} {path : String} (h : path ∈ p.aliases.map (·.path)) :
    ∃ b, p.find? path = some b := by
  obtain ⟨b, hb, rfl⟩ := List.mem_map.mp h
  refine Option.isSome_iff_exists.mp (List.find?_isSome.mpr ⟨b, hb, beq_self_eq_true _⟩)

/-- A table of a draft that is in order follows those before it. -/
theorem Draft.Orderly.follows {d : Draft} (orderly : d.Orderly) {i : Nat} {a : Alias}
    (at_i : d.aliases[i]? = some a) : a.Follows ((d.aliases.take i).map (·.path)) := by
  simpa using orderly.ordered.follows at_i

theorem Draft.Orderly.reaches {d : Draft} (orderly : d.Orderly) {i : Nat} {a : Alias} {j : Join}
    (at_i : d.aliases[i]? = some a) (joined : a.join = some j) :
    j.Reaches ((d.aliases.take i).map (·.path)) a.path := by
  have follows := orderly.follows at_i
  unfold Alias.Follows at follows
  rw [joined] at follows
  exact follows

/-- Only the first table of a draft that is in order has no join. -/
theorem Draft.Orderly.join_ne_none {d : Draft} (orderly : d.Orderly) {i : Nat} {a : Alias}
    (pos : 0 < i) (at_i : d.aliases[i]? = some a) : a.join ≠ none := by
  intro none
  have alone := orderly.follows at_i
  unfold Alias.Follows at alone
  rw [none] at alone
  have taken : d.aliases.take i = [] := List.map_eq_nil_iff.mp alone
  rcases List.take_eq_nil_iff.mp taken with zero | empty
  · exact absurd zero (Nat.ne_of_gt pos)
  · rw [empty] at at_i
    cases at_i

/-- In a draft that is in order and has a table, the tables of its plan are in a join order. -/
theorem joinOrder_planOf {root : Entity} {d : Draft} (orderly : d.Orderly) (some : d.paths ≠ [])
    (placed : ∀ l ∈ root.head.levels, l.path ∈ d.paths) (inner : root.members.PlacedIn d.paths) :
    JoinOrder (planOf root d) := by
  obtain ⟨first, rest, shape⟩ : ∃ first rest, d.aliases = first :: rest :=
    List.exists_cons_of_ne_nil fun none => some (by rw [Draft.paths, none]; rfl)
  have top : d.aliases[0]? = .some first := by rw [shape]; rfl
  constructor
  case root =>
    refine ⟨first, top, ?_⟩
    cases joined : first.join with
    | none => exact ⟨rfl, by rw [Alias.parent?, joined]; rfl⟩
    | some j => exact absurd (orderly.reaches top joined).parent List.not_mem_nil
  case later =>
    intro i a pos at_i
    have joined := orderly.join_ne_none pos at_i
    refine ⟨joined, ?_⟩
    rw [Alias.parent?, ne_eq, Option.map_eq_none_iff]
    exact joined
  case distinct => exact orderly.distinct
  case indexed =>
    exact fun i a at_i => ⟨findIdx?_of_nodup orderly.distinct at_i,
      find?_of_nodup (p := planOf root d) orderly.distinct at_i⟩
  case parents =>
    intro i a path at_i parent
    obtain ⟨j, joined, rfl⟩ := Option.map_eq_some_iff.mp parent
    exact exists_of_mem_take (orderly.reaches at_i joined).parent
  case conditions =>
    intro i a j at_i joined r hr
    rcases (orderly.reaches at_i joined).condition r hr with own | earlier
    · exact ⟨i, a, Nat.le_refl i, at_i, own.symm⟩
    · obtain ⟨k, b, before, at_k, same⟩ := exists_of_mem_take earlier
      exact ⟨k, b, Nat.le_of_lt before, at_k, same⟩
  case restrictions => exact fun i a j r at_i joined => (orderly.reaches at_i joined).restriction r
  case rootRestriction =>
    intro r hr
    have head := orderly.restriction r hr
    rw [Draft.paths, shape] at head
    exact ⟨first, top, (Option.some.inj head).symm⟩
  case aliasLevels => exact fun a ha l hl => exists_find? (orderly.levels a ha l hl)
  case entityLevels =>
    intro e he l hl
    rcases List.mem_cons.mp he with rfl | below
    · exact exists_find? (placed l hl)
    · obtain ⟨x, hx, rfl⟩ := List.mem_map.mp below
      exact exists_find? (inner x hx l hl)
  case select =>
    rintro item hi r column
    exact exists_find? (orderly.select item hi r.path (by rw [column]; exact List.mem_cons_self))
  case groupBy =>
    rintro e he r rfl
    rcases List.mem_append.mp he with own | late
    · exact exists_find? (orderly.groupBy _ own r.path List.mem_cons_self)
    · obtain ⟨text, -, other⟩ := List.mem_map.mp late
      cases other

theorem Draft.orderly_empty : Draft.Orderly {} := by
  constructor
  case distinct => exact List.nodup_nil
  case ordered => trivial
  all_goals intro _ h; cases h

/-- A plan comes from a draft that is in order. -/
theorem orderly_of_build {s : Schema} {name : String} {p : Plan} (h : Plan.build s name = .ok p) :
    ∃ root d, p = planOf root d ∧ d.Orderly := by
  obtain ⟨asked, ⟨declared, layout, members, d, -, -, derived, rfl⟩⟩ := derivation_of_build h
  exact ⟨_, d, rfl, (derived.orderly rfl Draft.orderly_empty).1⟩

/-- The paths of a plan that is built find their tables. -/
theorem find?_of_build {s : Schema} {name : String} {p : Plan} (built : Plan.build s name = .ok p) :
    ∀ e ∈ p.aliases, p.find? e.path = some e := by
  obtain ⟨root, d, rfl, orderly⟩ := orderly_of_build built
  intro e he
  obtain ⟨i, at_i⟩ := List.mem_iff_getElem?.mp he
  exact find?_of_nodup (p := planOf root d) orderly.distinct at_i

/-- **The tables of every plan stand in a join order.** -/
theorem joinOrder_of_build {s : Schema} {name : String} {p : Plan} (h : Plan.build s name = .ok p) :
    JoinOrder p := by
  obtain ⟨asked, ⟨declared, layout, members, d, -, -, derived, rfl⟩⟩ := derivation_of_build h
  obtain ⟨orderly, inner⟩ := derived.orderly rfl Draft.orderly_empty
  have some : d.paths ≠ [] := List.ne_nil_of_mem derived.takes_path.1
  cases derived with
  | entity _ _ walk late =>
    have grown := walk.grows.trans (Draft.grows_late late)
    exact joinOrder_planOf orderly some
      (fun l hl => grown.mem_paths (placedIn_entityHead _ _ _ l hl)) inner

/-- A schema whose plan has tables of all kinds: the levels of a person and of an employee, a country
that an embedded address refers to, and projects behind a link table. -/
def staff : Schema where
  sources := [⟨.fixed, [
    { name := "Person", table := some ⟨none, "person"⟩, subclasses := ["Employee"],
      fields := [
        { name := "id", type := .value .int, attrs := { id := some true } },
        { name := "name", type := .value .text },
        { name := "home", type := .named "Address", attrs := { embedded := some true } }] },
    { name := "Employee", table := some ⟨none, "employee"⟩, superclass := some "Person",
      fields := [
        { name := "projects", type := .named "Project", cardinality := .list,
          attrs := { link := some ⟨⟨none, "employee_project"⟩, none, none⟩ } }] },
    { name := "Address", embeddable := true,
      fields := [
        { name := "street", type := .value .text },
        { name := "country", type := .named "Country" }] },
    { name := "Country", table := some ⟨none, "country"⟩,
      fields := [{ name := "code", type := .value .text, attrs := { id := some true } }] },
    { name := "Project", table := some ⟨none, "project"⟩,
      fields := [{ name := "id", type := .value .int, attrs := { id := some true } }] }]⟩]

theorem joinOrder_staff : ∃ p, Plan.build staff "Person" = .ok p ∧
    p.aliases.map (·.path) =
      ["person", "person.employee", "home.country", "projects_link", "projects"] ∧
    JoinOrder p := by
  obtain ⟨p, built, paths⟩ := ok_of_map (x := Plan.build staff "Person")
    (f := fun p => p.aliases.map (·.path))
    (b := ["person", "person.employee", "home.country", "projects_link", "projects"])
    (by decide +kernel)
  exact ⟨p, built, paths, joinOrder_of_build built⟩

end Orm.Plan
