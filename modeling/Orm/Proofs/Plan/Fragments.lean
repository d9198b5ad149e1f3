import Orm.Proofs.Plan.Coverage

/-!
# `Proofs.Plan.Fragments` — the joins and grouping terms of types

A type may declare joins and grouping terms as they are to be written. Those of the ancestry of an
entity are added once the entity has been walked, anchored at its path, so they stand in the order in
which entities are finished: each after all below it.

The walk of an entity also takes in fields of other types: of subclasses, of the other types of a
discriminated hierarchy, and of value objects. What these declare is not added. So a plan has all
joins of the types that it takes fields from, if and only if none of those other types declares any;
and the same holds of grouping terms.

## Contents
- **Texts.** `placed`, `anchorAll`.
- **Order.** `Members.finished`, `Plan.finished`, `finished_perm`.
- **Layers.** `Members.valueLayers`, `EntityHead.subclassLayers`, `Entity.walkedLayers`,
  `Entity.foreignLayers`.
- **Drafts.** `AddsLate`, `Derives.addsLate`, `Derives.grouped`.
- **Main result.** `due_iff`, `Plan.fragments_complete_iff`.
-/

namespace Orm

open Schema

namespace Plan

open Sql

/-! ## Texts -/

/-- Texts that layers declare, each with the path that `this` stands for in it. -/
def placed (texts : TypeLayer → List String) (path : String) (layers : List TypeLayer) :
    List (String × String) :=
  layers.flatMap fun l => (texts l).map (path, ·)

theorem placed_append (texts : TypeLayer → List String) (path : String) (a b : List TypeLayer) :
    placed texts path (a ++ b) = placed texts path a ++ placed texts path b :=
  List.flatMap_append

/-- Layers that declare nothing add nothing. -/
theorem placed_eq_nil_iff {texts : TypeLayer → List String} {path : String}
    {layers : List TypeLayer} : placed texts path layers = [] ↔ ∀ l ∈ layers, texts l = [] := by
  unfold placed
  rw [List.flatMap_eq_nil_iff]
  exact forall₂_congr fun l _ => List.map_eq_nil_iff

/-- Texts with `this` standing for their paths. -/
def anchorAll (texts : List (String × String)) : Except Error (List String) :=
  texts.mapM fun t => rebase [("this", t.1)] t.2

theorem anchorAll_append {a b : List (String × String)} {found : List String} :
    anchorAll (a ++ b) = .ok found ↔
      ∃ left right, anchorAll a = .ok left ∧ anchorAll b = .ok right ∧ found = left ++ right :=
  mapM_append_ok

/-- The texts of one layer are anchored at one path. -/
theorem anchorAll_layer {path : String} {texts found : List String} :
    anchorAll (texts.map (path, ·)) = .ok found ↔
      texts.mapM (rebase [("this", path)]) = .ok found := by
  unfold anchorAll
  rw [List.mapM_map]
  rfl

/-! ## Order -/

/-- The entities that relations lead to, each after those below it. -/
def Members.finished : Members → List (EntityHead × Members)
  | .nil => []
  | .column _ _ rest => rest.finished
  | .embedded _ _ inner rest => inner.finished ++ rest.finished
  | .relation _ _ child inner rest => inner.finished ++ (child, inner) :: rest.finished

theorem Members.finished_append (a b : Members) : (a ++ b).finished = a.finished ++ b.finished := by
  show (a.append b).finished = _
  induction a with
  | nil => rfl
  | column f label rest ih => simp [append, finished, ih]
  | embedded f t inner rest _ ih => simp [append, finished, ih]
  | relation f k child inner rest _ ih => simp [append, finished, ih]

/-- Entities are finished in another order than they are met. -/
theorem Members.finished_perm (m : Members) : m.finished.Perm m.entities := by
  induction m with
  | nil => exact .refl _
  | column f label rest ih => exact ih
  | embedded f t inner rest inner_ih ih => exact inner_ih.append ih
  | relation f kind child inner rest inner_ih ih =>
    exact List.perm_middle.trans ((inner_ih.append ih).cons _)

end Plan

/-- The entities of a plan, each after those below it. -/
def Plan.finished (p : Plan) : List Plan.Entity :=
  match p.root with
  | none => []
  | some root => (root.members.finished.map fun e => ⟨e.1, e.2⟩) ++ [root]

theorem Plan.finished_perm (p : Plan) : p.finished.Perm p.entities := by
  unfold finished entities
  cases p.root with
  | none => exact .refl _
  | some root => exact List.perm_append_comm.trans ((root.members.finished_perm.map _).cons root)

namespace Plan

/-! ## Layers -/

/-- The layers of the value objects that members are made of, at any depth. -/
def Members.valueLayers : Members → List TypeLayer
  | .nil => []
  | .column _ _ rest => rest.valueLayers
  | .embedded _ t inner rest => t.layers ++ inner.valueLayers ++ rest.valueLayers
  | .relation _ _ _ _ rest => rest.valueLayers

/-- The layers of the subclasses that an entity has levels for, and of the types that its
discriminator tells. -/
def EntityHead.subclassLayers (e : EntityHead) : List TypeLayer :=
  (e.levels.filter (·.role == .subclass)).map (·.owner.toTypeLayer) ++
    e.discriminator.toList.flatMap fun d => d.candidates.map (·.toTypeLayer)

namespace Entity

/-- The layers of all types that the walk of an entity takes fields from, each once. -/
def walkedLayers (e : Entity) : List TypeLayer :=
  (e.head.declared.layers ++ (e.head.subclassLayers ++ e.members.valueLayers)).eraseDups

/-- Those that are not in the ancestry of the declared type. -/
def foreignLayers (e : Entity) : List TypeLayer :=
  ((e.head.subclassLayers ++ e.members.valueLayers).removeAll e.head.declared.layers).eraseDups

/-- The layers of a described type are different. -/
theorem nodup_layers {s : Schema} {t : TypeModel} (h : s.Describes t) : t.layers.Nodup := by
  obtain ⟨name, described⟩ := h
  obtain ⟨-, distinct, -, -⟩ := ancestry_of_describeFrom described
  exact List.nodup_reverse.mpr (List.Nodup.of_map _ distinct)

/-- Nothing is erased where nothing is there twice. -/
theorem eraseDups_of_nodup {α : Type} [BEq α] [LawfulBEq α] {l : List α} (h : l.Nodup) :
    l.eraseDups = l := by
  induction l with
  | nil => rfl
  | cons a rest ih =>
    obtain ⟨absent, distinct⟩ := List.nodup_cons.mp h
    have kept : (rest.filter fun b => !b == a) = rest := by
      refine List.filter_eq_self.mpr fun b hb => ?_
      rw [Bool.not_eq_true', beq_eq_false_iff_ne]
      exact fun same => absent (same ▸ hb)
    rw [List.eraseDups_cons, kept, ih distinct]

/-- The ancestry comes first, and then all others. -/
theorem walkedLayers_eq {s : Schema} {e : Entity} (h : s.Describes e.head.declared) :
    e.walkedLayers = e.head.declared.layers ++ e.foreignLayers := by
  unfold walkedLayers foreignLayers
  rw [List.eraseDups_append, eraseDups_of_nodup (nodup_layers h)]

theorem mem_walkedLayers {e : Entity} {l : TypeLayer} : l ∈ e.walkedLayers ↔
    l ∈ e.head.declared.layers ∨ l ∈ e.head.subclassLayers ∨ l ∈ e.members.valueLayers := by
  unfold walkedLayers
  rw [List.mem_eraseDups, List.mem_append, List.mem_append]

/-- The layers of the descendants whose fields a layout holds are told by the head of its entity. -/
theorem mem_subclassLayers {s : Schema} {path : String} {layout : Layout} {below : List TypeModel}
    (family : layout.Family s below) (index : Nat) {t : TypeModel} (ht : t ∈ below) :
    t.toTypeLayer ∈ (entityHead path layout index).subclassLayers := by
  unfold EntityHead.subclassLayers
  rcases family.told t ht with ⟨level, hl, rfl⟩ | discriminated
  · refine List.mem_append_left _ (List.mem_map.mpr ⟨levelPlan layout.declared.idFields
      (placedBeside path .subclass level), List.mem_filter.mpr ⟨List.mem_map_of_mem ?_, rfl⟩, rfl⟩)
    exact List.mem_append_right _ (List.mem_cons_of_mem _ (List.mem_map_of_mem hl))
  · obtain ⟨d, found⟩ := Option.isSome_iff_exists.mp discriminated
    have told : (entityHead path layout index).discriminator =
        some ⟨path ++ "." ++ d.column, layout.declared, d.candidates⟩ := by
      show discriminatorPlan path layout = _
      unfold discriminatorPlan
      rw [found]
      rfl
    rw [told]
    refine List.mem_append_right _ (List.mem_flatMap.mpr ⟨_, List.mem_singleton_self _, ?_⟩)
    exact List.mem_map_of_mem (family.candidates d found ▸ List.mem_cons_of_mem _ ht)

/-- **Every field that an entity takes is of one of the layers.** -/
theorem Walked.layer_of_field {s : Schema} {e : Entity} (h : e.Walked s) {f : FieldModel}
    (hf : f ∈ e.members.fields) : ∃ l ∈ e.walkedLayers, f ∈ l.fields := by
  obtain @⟨name, target, layout, path, _, _, _, d, _, members, _, describes, lays, walk⟩ := h
  obtain ⟨below, family⟩ := family_of_layout ⟨name, describes⟩ lays
  have mem : f ∈ members.fields := hf
  rw [walk.fields_eq] at mem
  obtain ⟨p, hp, stored⟩ := List.mem_flatMap.mp mem
  rcases family.sources p.level (level_of_placed hp) f (mem_storedFields.mp stored).1 with
    own | ⟨t, ht, inType⟩
  · obtain ⟨l, hl, inLayer⟩ := List.mem_flatMap.mp own
    exact ⟨l, mem_walkedLayers.mpr (.inl hl), inLayer⟩
  · exact ⟨t.toTypeLayer, mem_walkedLayers.mpr (.inr (.inl (mem_subclassLayers family _ ht))),
      inType⟩

end Entity

/-! ## Drafts -/

/-- Some layers with the paths that they are anchored at. -/
def placedAll (texts : TypeLayer → List String) (layers : List (String × List TypeLayer)) :
    List (String × String) :=
  layers.flatMap fun l => placed texts l.1 l.2

/-- From one draft to another, the joins and grouping terms of some layers have been added. -/
def AddsLate (layers : List (String × List TypeLayer)) (d d' : Draft) : Prop :=
  ∃ joins groups, anchorAll (placedAll (·.joins) layers) = .ok joins ∧
    anchorAll (placedAll (·.groupBy) layers) = .ok groups ∧
    d'.lateJoins = d.lateJoins ++ joins ∧ d'.lateGroups = d.lateGroups ++ groups

namespace AddsLate

variable {a b : List (String × List TypeLayer)} {d d₁ d' : Draft}

theorem none (joins : d'.lateJoins = d.lateJoins) (groups : d'.lateGroups = d.lateGroups) :
    AddsLate [] d d' :=
  ⟨[], [], rfl, rfl, by rw [joins, List.append_nil], by rw [groups, List.append_nil]⟩

theorem trans (first : AddsLate a d d₁) (second : AddsLate b d₁ d') : AddsLate (a ++ b) d d' := by
  obtain ⟨joins, groups, joined, grouped, more_joins, more_groups⟩ := first
  obtain ⟨joins', groups', joined', grouped', more_joins', more_groups'⟩ := second
  have both : ∀ texts, placedAll texts (a ++ b) = placedAll texts a ++ placedAll texts b :=
    fun _ => List.flatMap_append
  refine ⟨joins ++ joins', groups ++ groups', ?_, ?_, ?_, ?_⟩
  · rw [both]
    exact anchorAll_append.mpr ⟨joins, joins', joined, joined', rfl⟩
  · rw [both]
    exact anchorAll_append.mpr ⟨groups, groups', grouped, grouped', rfl⟩
  · rw [more_joins', more_joins, List.append_assoc]
  · rw [more_groups', more_groups, List.append_assoc]

/-- The texts of types are all added, anchored at the path. -/
theorem of_addLate {path : String} {layers : List TypeLayer} {u : Unit}
    (h : Yields (addLate path layers) d u d') : AddsLate [(path, layers)] d d' := by
  have single : ∀ texts layers, placedAll texts [(path, layers)] = placed texts path layers :=
    fun _ _ => List.flatMap_singleton _ _
  induction layers generalizing d with
  | nil =>
    obtain ⟨-, rfl⟩ := yields_pure.mp h
    exact ⟨[], [], rfl, rfl, (List.append_nil _).symm, (List.append_nil _).symm⟩
  | cons t rest ih =>
    obtain ⟨joins, groups, joined, grouped, run⟩ := yields_addLate_cons.mp h
    obtain ⟨joins', groups', joined', grouped', more_joins, more_groups⟩ := ih run
    rw [single] at joined' grouped'
    refine ⟨joins ++ joins', groups ++ groups', ?_, ?_, ?_, ?_⟩
    · rw [single]
      exact anchorAll_append.mpr ⟨joins, joins', anchorAll_layer.mpr joined, joined', rfl⟩
    · rw [single]
      exact anchorAll_append.mpr ⟨groups, groups', anchorAll_layer.mpr grouped, grouped', rfl⟩
    · rw [more_joins, Draft.withLate, List.append_assoc]
    · rw [more_groups, Draft.withLate, List.append_assoc]

end AddsLate

/-- The layers whose texts a part of the walk adds: those of the entities below it, and then those of
its own entity. -/
def Task.late (m : Members) : Task → List (String × List TypeLayer)
  | .entity path _ _ layout _ =>
    (m.finished.map fun e => (e.1.path, e.1.declared.layers)) ++ [(path, layout.declared.layers)]
  | _ => m.finished.map fun e => (e.1.path, e.1.declared.layers)

theorem Linked.late_eq {scope : Scope} {f : FieldModel} {d d' : Draft} (h : Linked scope f d d') :
    d'.lateJoins = d.lateJoins ∧ d'.lateGroups = d.lateGroups ∧ d'.groupBy = d.groupBy := by
  unfold Linked at h
  split at h
  next =>
    obtain ⟨a, -, -, rfl⟩ := h
    exact ⟨rfl, rfl, rfl⟩
  next =>
    rw [h]
    exact ⟨rfl, rfl, rfl⟩

theorem Draft.late_withKeys (path : String) (ids : List FieldModel) (d : Draft) :
    (d.withKeys path ids).lateJoins = d.lateJoins ∧ (d.withKeys path ids).lateGroups = d.lateGroups ∧
      (d.withKeys path ids).groupBy = d.groupBy := by
  induction ids generalizing d with
  | nil => exact ⟨rfl, rfl, rfl⟩
  | cons id rest ih => exact ih _

/-- **The walk adds the texts of the ancestry of each entity, and no others.** -/
theorem Derives.addsLate {s : Schema} {t : Task} {d d' : Draft} {m : Members}
    {asked : List SelectItem} (h : Derives s t d m asked d') : AddsLate (t.late m) d d' := by
  induction h with
  | key => exact .none rfl rfl
  | column => exact .none rfl rfl
  | computed => exact .none rfl rfl
  | @embedded _ f _ _ _ target inner _ _ _ _ _ ih =>
    have same : (Members.embedded f target inner .nil).finished = inner.finished :=
      List.append_nil _
    show AddsLate (List.map _ (Members.finished _)) _ _
    rw [same]
    exact ih
  | @relation _ _ _ _ _ _ _ _ _ inner _ _ _ _ _ linked _ _ ih =>
    have before := AddsLate.none linked.late_eq.1 linked.late_eq.2.1
    have both := before.trans ih
    show AddsLate (List.map _ (inner.finished ++ [_])) _ _
    rw [List.map_append]
    exact both
  | done => exact .none rfl rfl
  | skip _ _ ih => exact ih
  | next _ _ _ first rest =>
    show AddsLate (List.map _ (Members.finished _)) _ _
    rw [Members.finished_append, List.map_append]
    exact first.trans rest
  | bottom => exact .none rfl rfl
  | @level place p _ d _ _ _ _ _ _ _ _ first rest =>
    have keyed := Draft.late_withKeys p.path place.ids d
    have before := AddsLate.none keyed.1 keyed.2.1
    show AddsLate (List.map _ (Members.finished _)) _ _
    rw [Members.finished_append, List.map_append]
    exact (before.trans first).trans rest
  | @entity path _ _ layout attachment d _ _ _ _ _ _ _ late ih =>
    have before : AddsLate [] d (d.opened path layout attachment) := .none rfl rfl
    exact (before.trans ih).trans (.of_addLate late)

/-- The fields of members at any depth that rows are to be grouped by. -/
def Members.grouped : Members → List FieldModel
  | .nil => []
  | .column f _ rest => (if f.groupBy then [f] else []) ++ rest.grouped
  | .embedded _ _ inner rest => inner.grouped ++ rest.grouped
  | .relation _ _ _ inner rest => inner.grouped ++ rest.grouped

theorem Members.grouped_append (a b : Members) : (a ++ b).grouped = a.grouped ++ b.grouped := by
  show (a.append b).grouped = _
  induction a with
  | nil => rfl
  | column f label rest ih => simp [append, grouped, ih]
  | embedded f t inner rest _ ih => simp [append, grouped, ih]
  | relation f k child inner rest _ ih => simp [append, grouped, ih]

theorem Draft.length_grouping (d : Draft) (f : FieldModel) (label : String) (e : Expression) :
    (d.grouping f.groupBy e).groupBy.length =
      d.groupBy.length + (Members.column f label .nil).grouped.length := by
  unfold Draft.grouping Members.grouped
  cases f.groupBy
  · rfl
  · exact List.length_append

/-- The walk adds one grouping term for each field that asks for one. -/
theorem Derives.grouped {s : Schema} {t : Task} {d d' : Draft} {m : Members}
    {asked : List SelectItem} (h : Derives s t d m asked d') :
    d'.groupBy.length = d.groupBy.length + m.grouped.length := by
  induction h with
  | key => exact Draft.length_grouping ..
  | column => exact Draft.length_grouping ..
  | computed => exact Draft.length_grouping ..
  | @embedded _ f _ _ _ target inner _ _ _ _ _ ih =>
    have same : (Members.embedded f target inner .nil).grouped = inner.grouped := List.append_nil _
    rw [same, ih]
  | @relation _ _ _ _ _ _ _ _ _ inner _ _ _ _ _ linked _ _ ih =>
    show _ = _ + (inner.grouped ++ []).length
    rw [List.append_nil, ih, linked.late_eq.2.2]
  | done => rfl
  | skip _ _ ih => exact ih
  | next _ _ _ first rest => rw [Members.grouped_append, List.length_append, rest, first, Nat.add_assoc]
  | bottom => rfl
  | @level place p _ d _ _ _ _ _ _ _ _ first rest =>
    rw [Members.grouped_append, List.length_append, rest, first,
      (Draft.late_withKeys p.path place.ids d).2.2, Nat.add_assoc]
  | entity _ _ _ late ih =>
    obtain ⟨joins, groups, rfl⟩ := late_of_addLate late
    exact ih

end Plan

/-! ## Main result -/

namespace Plan

/-- The texts that the ancestries of the entities of a plan declare, in the order in which the entities
are finished. -/
def ownTexts (texts : TypeLayer → List String) (p : Plan) : List (String × String) :=
  p.finished.flatMap fun e => placed texts e.head.path e.head.declared.layers

/-- The texts of all types that the entities of a plan take fields from. -/
def dueTexts (texts : TypeLayer → List String) (p : Plan) : List (String × String) :=
  p.entities.flatMap fun e => placed texts e.head.path e.walkedLayers

/-- The fields of a plan that rows are to be grouped by. -/
def groupedFields (p : Plan) : List FieldModel :=
  p.root.toList.flatMap fun root => root.members.grouped

/-- **All texts that are due are there if and only if no foreign layer declares one.** -/
theorem due_iff {s : Schema} {p : Plan} (described : ∀ e ∈ p.entities, s.Describes e.head.declared)
    {texts : TypeLayer → List String} {present : List String}
    (made : anchorAll (p.ownTexts texts) = .ok present) :
    (∃ due, anchorAll (p.dueTexts texts) = .ok due ∧ due.Perm present) ↔
      ∀ e ∈ p.entities, ∀ l ∈ e.foreignLayers, texts l = [] := by
  let own (e : Entity) : List (String × String) := placed texts e.head.path e.head.declared.layers
  let foreign (e : Entity) : List (String × String) := placed texts e.head.path e.foreignLayers
  have order : (p.ownTexts texts).Perm (p.entities.flatMap own) := p.finished_perm.flatMap_right own
  have parts : p.dueTexts texts = p.entities.flatMap fun e => own e ++ foreign e := by
    refine List.flatMap_congr fun e he => ?_
    rw [Entity.walkedLayers_eq (described e he), placed_append]
  constructor
  · rintro ⟨due, run, same⟩
    -- the numbers of texts agree, so nothing is due but the own ones
    have count : (p.dueTexts texts).length = (p.entities.flatMap own).length := by
      rw [← length_of_mapM run, same.length_eq, length_of_mapM made, order.length_eq]
    rw [parts, ← (List.flatMap_append_perm p.entities own foreign).length_eq,
      List.length_append, Nat.add_eq_left, List.length_eq_zero_iff, List.flatMap_eq_nil_iff] at count
    exact fun e he => placed_eq_nil_iff.mp (count e he)
  · intro none
    have only : p.dueTexts texts = p.entities.flatMap own := by
      rw [parts]
      refine List.flatMap_congr fun e he => ?_
      show own e ++ placed texts e.head.path e.foreignLayers = own e
      rw [placed_eq_nil_iff.mpr (none e he), List.append_nil]
    obtain ⟨due, run, same⟩ := perm_of_mapM order made
    exact ⟨due, only ▸ run, same.symm⟩

/-- **The joins and grouping terms of types in a plan.** Its extra joins are those that the ancestries
of its entities declare; its grouping terms are those of fields, one for each, and then those that the
ancestries declare. All that the types declare that an entity takes fields from is there, if and only
if none of those outside the ancestry declares any. -/
theorem fragments_complete_iff {s : Schema} {name : String} {p : Plan}
    (built : Plan.build s name = .ok p) :
    anchorAll (p.ownTexts (·.joins)) = .ok p.extraJoins ∧
    ((∃ due, anchorAll (p.dueTexts (·.joins)) = .ok due ∧ due.Perm p.extraJoins) ↔
      ∀ e ∈ p.entities, ∀ l ∈ e.foreignLayers, l.joins = []) ∧
    ∃ terms groups, p.groupBy = terms ++ groups.map .raw ∧
      terms.length = p.groupedFields.length ∧
      anchorAll (p.ownTexts (·.groupBy)) = .ok groups ∧
      ((∃ due, anchorAll (p.dueTexts (·.groupBy)) = .ok due ∧ due.Perm groups) ↔
        ∀ e ∈ p.entities, ∀ l ∈ e.foreignLayers, l.groupBy = []) := by
  obtain ⟨root, -, wired⟩ := wired_of_build built
  have described : ∀ e ∈ p.entities, s.Describes e.head.declared := by
    intro e he
    obtain @⟨name, target, layout, _, _, _, _, _, _, _, _, describes, lays, -⟩ := wired.walked e he
    obtain ⟨sound, declared⟩ := sound_of_layout ⟨name, describes⟩ lays
    exact sound.declared
  obtain ⟨asked, ⟨derivation⟩⟩ := derivation_of_build built
  obtain ⟨_, layout, members, d, _, _, derived, rfl⟩ := derivation
  obtain ⟨joins, groups, joined, grouped, added_joins, added_groups⟩ := derived.addsLate
  -- the layers that the walk adds are those of the entities as they are finished
  have own : ∀ texts : TypeLayer → List String,
      placedAll texts (Task.late members (.entity layout.main.table.name "" [] layout none)) =
        (planOf ⟨entityHead layout.main.table.name layout 0, members⟩ d).ownTexts texts := by
    intro texts
    show List.flatMap _ (members.finished.map _ ++ [_]) =
      List.flatMap _ (members.finished.map _ ++ [_])
    rw [List.flatMap_append, List.flatMap_append, List.flatMap_map, List.flatMap_map]
    rfl
  have joined := own (·.joins) ▸ joined
  have grouped := own (·.groupBy) ▸ grouped
  obtain rfl : joins = d.lateJoins := added_joins.symm
  obtain rfl : groups = d.lateGroups := added_groups.symm
  have counted : d.groupBy.length = members.grouped.length :=
    derived.grouped.trans (Nat.zero_add _)
  refine ⟨joined, due_iff described joined, d.groupBy, d.lateGroups, rfl, ?_, grouped,
    due_iff described grouped⟩
  rw [counted]
  show members.grouped.length = (members.grouped ++ []).length
  rw [List.append_nil]

end Plan

/-- Vehicles in one table, of which the trucks take a field from a table that they join. -/
def tolls : Schema where
  sources := [⟨.runtime, [
    { name := "Vehicle", table := some ⟨none, "vehicle"⟩, discriminator := some "kind",
      subclasses := ["Truck"],
      fields := [
        { name := "plate", type := .value .text, attrs := { id := some true } },
        { name := "owner", type := .value .text, attrs := { sql := some "holder.name" } }],
      joins := ["LEFT JOIN holder ON holder.plate = \x7bthis.plate\x7d"] },
    { name := "Truck", superclass := some "Vehicle", discriminatorValue := some "truck",
      fields := [
        { name := "load", type := .value .int, attrs := { sql := some "weighing.tons" } }],
      joins := ["LEFT JOIN weighing ON weighing.plate = \x7bthis.plate\x7d"] }]⟩]

open Plan in
/-- Where all vehicles are asked for, the statement selects from a table that it does not join. -/
theorem fragments_complete_iff_tolls : ∃ p, Plan.build tolls "Vehicle" = .ok p ∧
    p.select.map (·.expression) = [.column ⟨"vehicle", "kind"⟩, .column ⟨"vehicle", "plate"⟩,
      .raw "holder.name", .raw "weighing.tons"] ∧
    p.extraJoins = ["LEFT JOIN holder ON holder.plate = \x7bvehicle.plate\x7d"] ∧
    anchorAll (p.dueTexts (·.joins)) = .ok [
      "LEFT JOIN holder ON holder.plate = \x7bvehicle.plate\x7d",
      "LEFT JOIN weighing ON weighing.plate = \x7bvehicle.plate\x7d"] ∧
    ¬ ∀ e ∈ p.entities, ∀ l ∈ e.foreignLayers, l.joins = [] := by
  obtain ⟨p, built, found⟩ := ok_of_map (x := Plan.build tolls "Vehicle")
    (f := fun p => (p.select.map (·.expression), p.extraJoins,
      (anchorAll (p.dueTexts (·.joins))).toOption.map id))
    (b := ([.column ⟨"vehicle", "kind"⟩, .column ⟨"vehicle", "plate"⟩, .raw "holder.name",
      .raw "weighing.tons"],
      ["LEFT JOIN holder ON holder.plate = \x7bvehicle.plate\x7d"],
      some ["LEFT JOIN holder ON holder.plate = \x7bvehicle.plate\x7d",
        "LEFT JOIN weighing ON weighing.plate = \x7bvehicle.plate\x7d"])) (by decide +kernel)
  obtain ⟨select, rest⟩ := Prod.mk.inj found
  obtain ⟨joins, kept⟩ := Prod.mk.inj rest
  obtain ⟨_, due, rfl⟩ := ok_of_map kept
  refine ⟨p, built, select, joins, due, fun none => ?_⟩
  -- two joins are due, and the plan has one
  obtain ⟨all, made, same⟩ := (Plan.fragments_complete_iff built).2.1.mpr none
  cases due.symm.trans made
  have count := same.length_eq
  rw [joins] at count
  exact absurd count (by decide)

end Orm
