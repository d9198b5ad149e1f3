import Orm.Proofs.Plan.JoinOrder
import Orm.Proofs.Plan.Resolution
import Orm.Proofs.Plan.SelectList

/-!
# `Proofs.Plan.Labels` — labels can be used as references

An entry of the select list has a label, and the label of a field is the path of its table with the path
of the field behind it. The same text written as a reference is read from the other end: the longest front
that is the path of a table counts, and what follows is looked for among the columns that the table has
for its fields. Both come from the walk, which gives a table a column for a field whenever it asks for the
column under the label of the field. Each side keeps the first request for a label, and a label is taken
no later than the field has its column, so that the two sides keep the same one.

Entries that tell types apart are not among them: the column of a discriminator is selected and no field
has it, so a field of that name may have another column.

## Contents
- **Columns of fields.** `Alias.noting`, `Alias.column?_noting`, `Draft.Registered`.
- **Steps.** What each function on drafts keeps.
- **Walks.** `Scope.Aligned`, `EntityHead.Tells`, `Derives.registered`.
- **Discriminators.** `Plan.TellsTypes`, `asks_of_not_tellsTypes`, `discriminator_first`.
- **Main result.** `labels_resolve`.
-/

namespace Orm.Plan

open Sql Schema

/-! ## Columns of fields -/

/-- A field that has a column keeps it. -/
theorem Alias.column?_withColumn (a : Alias) (field column other : String) :
    (a.withColumn field column).column? other =
      (a.column? other).or (if other = field then some column else none) := by
  unfold withColumn
  split
  next has =>
    by_cases same : other = field
    · subst same
      obtain ⟨old, found⟩ := Option.isSome_iff_exists.mp has
      rw [found, Option.some_or]
    · rw [if_neg same, Option.or_none]
  next =>
    show (a.columns ++ [(field, column)]).lookup other = _
    rw [List.lookup_append, List.lookup_cons, List.lookup_nil]
    by_cases same : other = field
    · rw [if_pos same, same, beq_self_eq_true]
      rfl
    · rw [if_neg same, beq_eq_false_iff_ne.mpr same]
      rfl

/-- A table after a field has got a column in some table. -/
def Alias.noting (a : Alias) (path field column : String) : Alias :=
  if a.path == path then a.withColumn field column else a

theorem Alias.path_noting (a : Alias) (path field column : String) :
    (a.noting path field column).path = a.path := by
  unfold noting
  split
  · exact a.path_withColumn field column
  · rfl

theorem Alias.column?_noting (a : Alias) (path field column other : String) :
    (a.noting path field column).column? other =
      (a.column? other).or (if a.path = path ∧ other = field then some column else none) := by
  unfold noting
  by_cases here : a.path = path
  · rw [if_pos (beq_iff_eq.mpr here), a.column?_withColumn]
    simp only [here, true_and]
  · rw [if_neg fun same => here (beq_iff_eq.mp same), if_neg fun both => here both.1, Option.or_none]

theorem Draft.aliases_registering (d : Draft) (path field column : String) :
    (d.registering path field column).aliases = d.aliases.map (·.noting path field column) := rfl

/-- The columns that fields have and the entries that are selected go together, apart from entries of
some other kind. -/
structure Draft.Registered (other : SelectItem → Prop) (d : Draft) : Prop where
  /-- The label of a field with a column is taken. -/
  labelled : ∀ a ∈ d.aliases, ∀ field, (a.column? field).isSome → a.path ++ "." ++ field ∈ d.labels
  /-- A column is selected under the label of a field that has the column. -/
  stored : ∀ item ∈ d.select, ∀ c, item.expression = .column c → other item ∨
    ∃ a ∈ d.aliases, ∃ field, a.path = c.path ∧ item.label = a.path ++ "." ++ field ∧
      a.column? field = some c.column

/-! ## Steps -/

theorem Draft.mem_labels_selecting (d : Draft) (e : Expression) (label : String) :
    label ∈ (d.selecting e label).labels := by
  unfold Draft.labels Draft.selecting offer
  dsimp only
  split
  next taken =>
    obtain ⟨item, hi, same⟩ := List.any_eq_true.mp taken
    exact List.mem_map.mpr ⟨item, hi, beq_iff_eq.mp same⟩
  next => simp

namespace Draft.Registered

variable {other : SelectItem → Prop} {d d' : Draft}

theorem empty (other : SelectItem → Prop) : Draft.Registered other {} :=
  ⟨fun _ ha => absurd ha List.not_mem_nil, fun _ hi => absurd hi List.not_mem_nil⟩

/-- A draft with the same tables and the same select list. -/
theorem of_eq (h : d.Registered other) (aliases : d'.aliases = d.aliases)
    (select : d'.select = d.select) : d'.Registered other := by
  refine ⟨?_, ?_⟩
  · rw [aliases, Draft.labels, select]
    exact h.labelled
  · rw [aliases, select]
    exact h.stored

theorem grouping (h : d.Registered other) (wanted : Bool) (e : Expression) :
    (d.grouping wanted e).Registered other :=
  h.of_eq rfl rfl

/-- An entry that is no column, or one of another kind. -/
theorem selecting (h : d.Registered other) {e : Expression} {label : String}
    (apart : ∀ c, e = .column c → other ⟨e, label⟩) : (d.selecting e label).Registered other where
  labelled := fun a ha field has =>
    (Draft.grows_selecting e label).mem_labels (h.labelled a ha field has)
  stored := by
    show ∀ item ∈ offer d.select e label, _
    unfold offer
    split
    · exact h.stored
    · intro item hi c column
      rcases List.mem_append.mp hi with old | new
      · exact h.stored item old c column
      · rw [List.mem_singleton.mp new] at column ⊢
        exact .inl (apart c column)

/-- While its label is free, a field has no column. -/
theorem column?_eq_none (h : d.Registered other) {a : Alias} (ha : a ∈ d.aliases) {field : String}
    (free : ¬d.select.any (·.label == a.path ++ "." ++ field) = true) : a.column? field = none := by
  refine Option.eq_none_iff_forall_ne_some.mpr fun column has => free ?_
  obtain ⟨item, hi, same⟩ :=
    List.mem_map.mp (h.labelled a ha field (Option.isSome_iff_exists.mpr ⟨column, has⟩))
  exact List.any_eq_true.mpr ⟨item, hi, beq_iff_eq.mpr same⟩

/-- **A column is selected under the label of a field, and the field gets the column.** If the label is
taken the entry is dropped, and if the field has a column it keeps it. -/
theorem noting (h : d.Registered other) {path : String} (taken : path ∈ d.paths)
    (field column : String) :
    ((d.selecting (.column ⟨path, column⟩) (path ++ "." ++ field)).registering path field
      column).Registered other := by
  refine ⟨?_, ?_⟩
  case refine_1 =>
    rw [Draft.aliases_registering]
    intro b hb field' has
    obtain ⟨a, ha, rfl⟩ := List.mem_map.mp hb
    rw [a.column?_noting, Option.isSome_or, Bool.or_eq_true] at has
    rw [a.path_noting]
    rcases has with old | new
    · exact (Draft.grows_selecting _ _).mem_labels (h.labelled a ha field' old)
    · split at new
      next here =>
        rw [here.1, here.2]
        exact d.mem_labels_selecting _ _
      next => cases new
  case refine_2 =>
    rw [Draft.aliases_registering]
    intro item hi c column_eq
    -- a field of a table before still has its column
    have kept : ∀ a ∈ d.aliases, ∀ field' column', a.column? field' = some column' →
        ∃ b ∈ d.aliases.map (·.noting path field column), b.path = a.path ∧
          b.column? field' = some column' := fun a ha field' column' has => by
      refine ⟨_, List.mem_map_of_mem ha, a.path_noting _ _ _, ?_⟩
      rw [a.column?_noting, has, Option.some_or]
    have before : item ∈ d.select → other item ∨
        ∃ b ∈ d.aliases.map (·.noting path field column), ∃ field', b.path = c.path ∧
          item.label = b.path ++ "." ++ field' ∧ b.column? field' = some c.column := fun old => by
      refine (h.stored item old c column_eq).imp id ?_
      rintro ⟨a, ha, field', path_eq, label, has⟩
      obtain ⟨b, hb, same, has'⟩ := kept a ha field' _ has
      exact ⟨b, hb, field', same.trans path_eq, same ▸ label, has'⟩
    change item ∈ offer d.select _ _ at hi
    unfold offer at hi
    split at hi
    · exact before hi
    next free =>
      rcases List.mem_append.mp hi with old | new
      · exact before old
      obtain rfl := List.mem_singleton.mp new
      cases column_eq
      obtain ⟨a, ha, rfl⟩ := List.mem_map.mp taken
      refine .inr ⟨_, List.mem_map_of_mem ha, field, a.path_noting _ _ _, ?_, ?_⟩
      · rw [a.path_noting]
      · rw [a.column?_noting, h.column?_eq_none ha free, if_pos ⟨rfl, rfl⟩, Option.none_or]

theorem withKeys {path : String} (ids : List FieldModel) {d : Draft} (h : d.Registered other)
    (taken : path ∈ d.paths) : (d.withKeys path ids).Registered other := by
  induction ids generalizing d with
  | nil => exact h
  | cons id rest ih =>
    refine ih (h.noting taken id.name id.column) ?_
    rw [Draft.paths_registering]
    exact taken

/-- Tables without columns may be added. -/
theorem withAliases (h : d.Registered other) {as : List Alias} (bare : ∀ a ∈ as, a.columns = []) :
    (d.withAliases as).Registered other := by
  refine ⟨fun a ha field has => ?_, fun item hi c column => ?_⟩
  · rcases List.mem_append.mp ha with old | new
    · exact h.labelled a old field has
    · rw [Alias.column?, bare a new] at has
      cases has
  · refine (h.stored item hi c column).imp id ?_
    rintro ⟨a, ha, field⟩
    exact ⟨a, List.mem_append_left _ ha, field⟩

theorem opened (h : d.Registered other) {path : String} {layout : Layout}
    (attachment : Option Attachment) (told : ∀ item ∈ discriminatorItems path layout, other item) :
    (d.opened path layout attachment).Registered other := by
  have bare : ∀ a ∈ entityAliases path layout attachment, a.columns = [] := by
    intro a ha
    rcases List.mem_cons.mp ha with rfl | side
    · rfl
    · obtain ⟨p, -, rfl⟩ := List.mem_map.mp side
      rfl
  have limited : (d.limiting path layout attachment).Registered other := h.of_eq rfl rfl
  have placed := limited.withAliases bare
  unfold Draft.opened Draft.discriminating
  unfold discriminatorItems at told
  cases dis : layout.discrimination with
  | none => exact placed.of_eq rfl rfl
  | some dis' =>
    rw [dis] at told
    have item := told _ List.mem_cons_self
    exact (placed.selecting fun _ _ => item).of_eq rfl rfl

theorem linked (h : d.Registered other) {scope : Scope} {f : FieldModel} (linked : Linked scope f d d') :
    d'.Registered other := by
  unfold Linked at linked
  split at linked
  next =>
    obtain ⟨a, made, -, rfl⟩ := linked
    obtain ⟨id, -, result⟩ := ok_bind.mp made
    cases result
    exact h.withAliases fun b hb => by rw [List.mem_singleton.mp hb]
  next => exact linked ▸ h

theorem late (h : d.Registered other) {path : String} {layers : List TypeLayer} {u : Unit}
    (added : Yields (addLate path layers) d u d') : d'.Registered other := by
  obtain ⟨joins, groups, rfl⟩ := late_of_addLate added
  exact h.of_eq rfl rfl

end Draft.Registered

/-! ## Walks -/

/-- Labels begin as the paths of fields do, behind the path of the table. -/
def Scope.Aligned (scope : Scope) : Prop :=
  scope.labelBase ++ "." = scope.levelAlias ++ "." ++ scope.fieldBase

namespace Scope.Aligned

variable {scope : Scope}

theorem level (place : Place) (p : PlacedLevel) : (place.scope p).Aligned :=
  String.append_empty.symm

theorem inside (h : scope.Aligned) (f : FieldModel) (target : TypeModel) :
    (scope.inside f target).Aligned := by
  show scope.labelBase ++ "." ++ f.name ++ "." =
    scope.levelAlias ++ "." ++ (scope.fieldBase ++ f.name ++ ".")
  rw [h]
  simp only [String.append_assoc]

/-- The label of a field is its path behind that of the table. -/
theorem label (h : scope.Aligned) (f : FieldModel) :
    scope.label f = scope.levelAlias ++ "." ++ (scope.fieldBase ++ f.name) := by
  show scope.labelBase ++ "." ++ f.name = _
  rw [h, String.append_assoc]

end Scope.Aligned

/-- The scope of a part of the walk is aligned, if it has one. -/
def Task.Aligned : Task → Prop
  | .field scope _ => scope.Aligned
  | .fields scope _ => scope.Aligned
  | _ => True

/-- What an entity tells its types by is of some kind. -/
def Task.Told (other : SelectItem → Prop) : Task → Prop
  | .entity path _ _ layout _ => ∀ item ∈ discriminatorItems path layout, other item
  | _ => True

/-- The types of an entity are told by an entry of the select list. -/
def EntityHead.Tells (e : EntityHead) (item : SelectItem) : Prop :=
  ∃ told column, e.discriminator = some told ∧ told.label = e.path ++ "." ++ column ∧
    item = ⟨.column ⟨e.path, column⟩, told.label⟩

theorem tells_of_mem_discriminatorItems {path : String} {layout : Layout} {item : SelectItem}
    (h : item ∈ discriminatorItems path layout) (index : Nat) :
    (entityHead path layout index).Tells item := by
  obtain ⟨dis, told, rfl⟩ := List.mem_map.mp h
  have told := Option.mem_toList.mp told
  exact ⟨_, dis.column, congrArg (Option.map _) told, rfl, rfl⟩

/-- **Every part of the walk keeps the columns of fields and the selected entries together.** -/
theorem Derives.registered {s : Schema} {t : Task} {d d' : Draft} {m : Members}
    {asked : List SelectItem} {other : SelectItem → Prop} (h : Derives s t d m asked d')
    (ready : t.Ready d) (aligned : t.Aligned) (told : t.Told other)
    (below : ∀ x ∈ m.entities, ∀ item, x.1.Tells item → other item) (registered : d.Registered other) :
    d'.Registered other := by
  induction h with
  | key => exact registered.grouping _ _
  | @column scope f d =>
    have noted := registered.noting ready (scope.fieldBase ++ f.name) (scope.columnPrefix ++ f.column)
    rw [← aligned.label f] at noted
    exact noted.of_eq rfl rfl
  | computed => exact (registered.grouping _ _).selecting fun _ column => nomatch column
  | @embedded scope f _ _ _ target _ _ _ _ _ _ ih =>
    rw [Members.entities_embedded] at below
    exact ih ready (aligned.inside f target) trivial below registered
  | relation _ _ _ _ linked joined _ ih =>
    rw [Members.entities_relation] at below
    obtain ⟨child, inner⟩ := List.forall_mem_cons.mp below
    have attachable := attachable_relation linked ready joined
    exact ih attachable trivial
      (fun item hi => child item (tells_of_mem_discriminatorItems hi _)) inner (registered.linked linked)
  | done => exact registered
  | skip _ _ ih => exact ih ready aligned told below registered
  | next _ first _ here later =>
    rw [Members.entities_append] at below
    obtain ⟨left, right⟩ := List.forall_mem_append.mp below
    exact later (first.grows.mem_paths ready) aligned trivial right
      (here ready aligned trivial left registered)
  | bottom => exact registered
  | @level place p ps d _ _ _ _ _ _ first _ here later =>
    rw [Members.entities_append] at below
    obtain ⟨left, right⟩ := List.forall_mem_append.mp below
    have taken := ready p List.mem_cons_self
    have grown := Draft.grows_withKeys p.path place.ids d
    refine later (fun q hq => ?_) trivial trivial right
      (here (grown.mem_paths taken) (.level place p) trivial left (registered.withKeys place.ids taken))
    exact (grown.trans first.grows).mem_paths (ready q (List.mem_cons_of_mem _ hq))
  | entity _ _ _ late ih =>
    exact (ih Task.Ready.opened trivial trivial below (registered.opened _ told)).late late

end Orm.Plan

namespace Orm

open Plan Schema

namespace Plan

variable {s : Schema} {name : String} {p : Plan} {asked : List SelectItem}

/-! ## Discriminators -/

/-- The types of one of the entities of a plan are told by an entry of the select list. -/
def TellsTypes (p : Plan) (item : SelectItem) : Prop :=
  ∃ e ∈ p.entities, e.head.Tells item

/-- An entry that tells no types is there for a key of a level, or for a single value. -/
theorem asks_of_not_tellsTypes (h : Derivation s name p asked) {item : SelectItem}
    (selected : item ∈ p.select) (field : ¬ p.TellsTypes item) :
    ∃ e ∈ p.entities,
      (∃ level ∈ e.head.levels, ∃ id ∈ e.head.declared.idFields,
        item = ⟨.column ⟨level.path, id.column⟩, level.path ++ "." ++ id.name⟩) ∨
      ∃ c ∈ e.cells, c.label = item.label ∧ e.Sources c item.expression := by
  have first := (h.mem_select_iff item).mp selected
  rw [h.find?_select] at first
  obtain ⟨e, he, asks⟩ := (h.asked_iff item).mp (List.mem_of_find?_eq_some first)
  refine ⟨e, he, ?_⟩
  cases asks with
  | key of declared => exact .inl ⟨_, of, _, declared, rfl⟩
  | discriminator tells label => exact absurd ⟨e, he, _, _, tells, label, rfl⟩ field
  | cell of _ at_level source => exact .inr ⟨_, of, rfl, _, at_level, source⟩

/-- **An entity asks for what tells its types before anything else is asked for of its table.** So no
entry that a field has asked for before is equal to it. -/
theorem discriminator_first {path relationBase : String} {walking : List String} {layout : Layout}
    {attachment : Option Attachment} {d d' : Draft} {m : Members}
    (h : Derives s (.entity path relationBase walking layout attachment) d m asked d')
    (orderly : d.Orderly) : ∀ item ∈ discriminatorItems path layout, item ∉ d.select := by
  intro item hi selected
  obtain ⟨dis, -, rfl⟩ := List.mem_map.mp hi
  exact h.takes_path.2 (orderly.select _ selected path List.mem_cons_self)

/-! ## Main result -/

/-- The walk of a plan keeps the columns of fields and the selected entries together. -/
theorem registered_of_build (h : Plan.build s name = .ok p) :
    ∃ root d, p = planOf root d ∧ d.Registered p.TellsTypes := by
  obtain ⟨asked, ⟨declared, layout, members, d, -, -, derived, rfl⟩⟩ := derivation_of_build h
  refine ⟨_, d, rfl, derived.registered rfl trivial (fun item hi => ?_) (fun x hx item tells => ?_)
    (.empty _)⟩
  · exact ⟨_, List.mem_cons_self, tells_of_mem_discriminatorItems hi _⟩
  · exact ⟨⟨x.1, x.2⟩, List.mem_cons_of_mem _ (List.mem_map.mpr ⟨x, hx, rfl⟩), tells⟩

/-- **A label is a reference to what is selected under it.** An entry of the select list that is there
for a key or for a single value, and that selects a column, has a label that stands for this very column,
in every level of an entity and at every depth of value objects. Only a longer path of a table that the
label begins with, or is, takes the label away from it; and entries that tell types apart are there for
no field. Whatever a reference stands for is in a table of the plan. -/
theorem labels_resolve (h : Plan.build s name = .ok p) :
    (∀ item ∈ p.select, ∀ c, item.expression = .column c → ¬ p.TellsTypes item →
      p.Longest c.path item.label → p.resolve? item.label = some (.column c.path c.column)) ∧
    ∀ reference target, p.resolve? reference = some target →
      ∃ a ∈ p.aliases, target = .table a.path ∨ ∃ column, target = .column a.path column := by
  constructor
  · intro item hi c column field longest
    have distinct : (p.aliases.map (·.path)).Nodup := by
      obtain ⟨_, d, rfl, orderly⟩ := orderly_of_build h
      exact orderly.distinct
    obtain ⟨_, d, rfl, registered⟩ := registered_of_build h
    obtain tells | ⟨a, ha, fieldPath, path, label, stored⟩ := registered.stored item hi c column
    · exact absurd tells field
    obtain ⟨i, at_i⟩ := List.mem_iff_getElem?.mp ha
    have found := find?_of_nodup (p := planOf _ d) distinct at_i
    rw [← path, label] at longest ⊢
    exact resolve?_of_stored found stored longest
  · intro reference target resolves
    obtain ⟨a, ha, table | ⟨column, stored, -⟩⟩ := target_of_resolve? resolves
    · exact ⟨a, ha, .inl table⟩
    · exact ⟨a, ha, .inr ⟨column, stored⟩⟩

/-- Vehicles of all kinds lie in one table, with the values of their engines. Their owners are parties,
which have a table of their own. -/
def depot : Schema where
  sources := [⟨.runtime, [
    { name := "Vehicle", table := some ⟨none, "vehicle"⟩, discriminator := some "kind",
      subclasses := ["Truck"],
      fields := [
        { name := "id", type := .value .int, attrs := { id := some true } },
        { name := "engine", type := .named "Engine" },
        { name := "owner", type := .named "Owner" }] },
    { name := "Truck", superclass := some "Vehicle",
      fields := [{ name := "load", type := .value .int, attrs := { column := some "tons" } }] },
    { name := "Engine", embeddable := true, fields := [{ name := "power", type := .value .int }] },
    { name := "Party", table := some ⟨none, "party"⟩,
      fields := [
        { name := "id", type := .value .int, attrs := { id := some true } },
        { name := "name", type := .value .text }] },
    { name := "Owner", superclass := some "Party", table := some ⟨none, "owner"⟩,
      fields := [{ name := "since", type := .value .date }] }]⟩]

theorem labels_resolve_depot : ∃ p, Plan.build depot "Vehicle" = .ok p ∧
    p.labels = ["vehicle.kind", "vehicle.id", "vehicle.engine.power", "owner.party.id",
      "owner.party.name", "owner.id", "owner.since", "vehicle.load"] ∧
    (∀ column label, (column, label) ∈ [(ColumnRef.mk "vehicle" "id", "vehicle.id"),
        (⟨"vehicle", "engine_power"⟩, "vehicle.engine.power"), (⟨"vehicle", "tons"⟩, "vehicle.load"),
        (⟨"owner.party", "id"⟩, "owner.party.id"), (⟨"owner.party", "name"⟩, "owner.party.name")] →
      p.resolve? label = some (.column column.path column.column)) ∧
    ∀ reference target, p.resolve? reference = some target →
      ∃ a ∈ p.aliases, target = .table a.path ∨ ∃ column, target = .column a.path column := by
  obtain ⟨p, built, shown⟩ := ok_of_map (x := Plan.build depot "Vehicle")
    (f := fun p => (p.labels, p.entities.map (fun e => e.head.discriminator.map (·.label)),
      [(ColumnRef.mk "vehicle" "id", "vehicle.id"),
        (⟨"vehicle", "engine_power"⟩, "vehicle.engine.power"), (⟨"vehicle", "tons"⟩, "vehicle.load"),
        (⟨"owner.party", "id"⟩, "owner.party.id"), (⟨"owner.party", "name"⟩, "owner.party.name")].all
        fun entry => decide (SelectItem.mk (.column entry.1) entry.2 ∈ p.select ∧
          entry.2 ≠ "vehicle.kind" ∧ p.Longest entry.1.path entry.2)))
    (b := (["vehicle.kind", "vehicle.id", "vehicle.engine.power", "owner.party.id",
      "owner.party.name", "owner.id", "owner.since", "vehicle.load"],
      [some "vehicle.kind", none], true))
    (by decide +kernel)
  simp only [Prod.mk.injEq] at shown
  obtain ⟨labels, discriminators, entries⟩ := shown
  obtain ⟨resolve, inside⟩ := labels_resolve built
  refine ⟨p, built, labels, fun column label mem => ?_, inside⟩
  obtain ⟨selected, other, longest⟩ := of_decide_eq_true (List.all_eq_true.mp entries _ mem)
  refine resolve _ selected column rfl ?_ longest
  -- the only entry that tells types is that for the kind of a vehicle
  rintro ⟨e, he, told, _, tells, -, same⟩
  have kinds := List.mem_map_of_mem (f := fun e : Entity => e.head.discriminator.map (·.label)) he
  rw [discriminators, tells] at kinds
  have label_eq : label = told.label := congrArg SelectItem.label same
  simp only [Option.map_some, List.mem_cons, Option.some.injEq, List.not_mem_nil, or_false,
    reduceCtorEq] at kinds
  exact other (label_eq.trans kinds)

end Plan

end Orm
