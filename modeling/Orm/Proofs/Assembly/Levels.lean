import Orm.Proofs.Plan.Sites
import Orm.Proofs.Schema.Bounds

/-!
# `Proofs.Assembly.Levels` — types told by levels

In a vertical hierarchy every descendant of the declared type has a level of its own, and a row tells
its type by the levels that are there. The deepest of these is taken, the last one of them if there are
several. Depth stands for specificity: whatever extends a type has more ancestors than it, so nothing
that is there extends the type of the deepest level. Where the types of these levels lie on one line of
inheritance, one of them extends all others, and it is told in whatever order the levels come.

## Contents
- **Lineages.** `eq_or_lt_of_mem_lineage`, `lineage_total`, `isA_iff_mem_lineage`.
- **Levels that are there.** `EntityHead.Present`, `deepest?_eq_none_iff`, `le_of_deepest?`.
- **The type of a row.** `typeOf_of_absent`, `exists_present_typeOf`, `typeOf_of_line`.
- **Main result.** `Plan.typeOf_most_specific`.
-/

namespace Orm

open Schema Plan

/-! ## Lineages -/

namespace Schema.TypeModel

/-- A type on the way up is where the way starts, or it has fewer ancestors. -/
theorem eq_or_lt_of_mem_upward {own : TypeLayer} {above : List TypeLayer} {u : TypeModel}
    (h : u ∈ upward own above) : u = ⟨own, above⟩ ∨ u.ancestors.length < above.length := by
  induction above generalizing own with
  | nil => exact .inl (List.mem_singleton.mp h)
  | cons parent rest ih =>
    rcases List.mem_cons.mp h with here | higher
    · exact .inl here
    · refine .inr ?_
      rcases ih higher with rfl | shorter
      · exact Nat.lt_succ_self _
      · exact Nat.lt_succ_of_lt shorter

/-- **A type has fewer ancestors than whatever extends it.** -/
theorem eq_or_lt_of_mem_lineage {t u : TypeModel} (h : u ∈ t.lineage) :
    u = t ∨ u.ancestors.length < t.ancestors.length :=
  eq_or_lt_of_mem_upward (List.mem_reverse.mp h)

theorem self_mem_lineage (t : TypeModel) : t ∈ t.lineage := by
  refine List.mem_reverse.mpr ?_
  obtain ⟨own, above⟩ := t
  cases above <;> exact List.mem_cons_self

/-- Of two types on the way up, one lies on the way up from the other. -/
theorem upward_total {own : TypeLayer} {above : List TypeLayer} {u v : TypeModel}
    (hu : u ∈ upward own above) (hv : v ∈ upward own above) : u ∈ v.lineage ∨ v ∈ u.lineage := by
  induction above generalizing own with
  | nil =>
    rw [List.mem_singleton.mp hu, List.mem_singleton.mp hv]
    exact .inl (self_mem_lineage _)
  | cons parent rest ih =>
    rcases List.mem_cons.mp hu with rfl | higher_u
    · exact .inr (List.mem_reverse.mpr hv)
    rcases List.mem_cons.mp hv with rfl | higher_v
    · exact .inl (List.mem_reverse.mpr hu)
    · exact ih higher_u higher_v

/-- **Of two types that one type extends, one extends the other.** -/
theorem lineage_total {t u v : TypeModel} (hu : u ∈ t.lineage) (hv : v ∈ t.lineage) :
    u ∈ v.lineage ∨ v ∈ u.lineage :=
  upward_total (List.mem_reverse.mp hu) (List.mem_reverse.mp hv)

end Schema.TypeModel

/-- A described type is one of another just if it extends it. That only names are compared makes no
difference. -/
theorem isA_iff_mem_lineage {s : Schema} {t u : TypeModel} (ht : s.Describes t) (hu : s.Describes u) :
    t.isA u.name = true ↔ u ∈ t.lineage := by
  have layer_iff : ∀ {l : TypeLayer}, l ∈ t.toTypeLayer :: t.ancestors ↔
      ∃ v ∈ t.lineage, v.toTypeLayer = l := fun {l} => by
    rw [← List.mem_reverse, ← List.mem_map]
    exact iff_of_eq (congrArg (l ∈ ·) t.map_lineage.symm)
  constructor
  · intro isA
    obtain ⟨l, hl, same⟩ := List.any_eq_true.mp isA
    obtain ⟨v, hv, rfl⟩ := layer_iff.mp hl
    -- the type on the lineage is described under the name as well
    have self := (ht.of_mem_lineage hv).self
    rw [beq_iff_eq.mp same, hu.self] at self
    exact Except.ok.inj self ▸ hv
  · exact fun hu => List.any_eq_true.mpr ⟨u.toTypeLayer, layer_iff.mpr ⟨u, hu, rfl⟩, beq_self_eq_true _⟩

/-! ## Levels that are there -/

/-- A subclass level of an entity is there in a row: some label of its key is not NULL. -/
def Plan.EntityHead.Present (e : EntityHead) (row : Row) (l : LevelPlan) : Prop :=
  l ∈ e.levels ∧ l.role = .subclass ∧ ∃ label ∈ l.keyLabels, (row.getOrNull label).isNull = false

/-- The levels that are looked at are those that are there. -/
theorem mem_filter_present {e : EntityHead} {row : Row} {l : LevelPlan} :
    l ∈ e.levels.filter (fun l => l.role == .subclass && l.isPresent row) ↔ e.Present row l := by
  rw [List.mem_filter, Bool.and_eq_true, beq_iff_eq, LevelPlan.isPresent, List.any_eq_true]
  simp only [Bool.not_eq_true']
  rfl

theorem deepest?_eq_none_iff {levels : List LevelPlan} : deepest? levels = none ↔ levels = [] := by
  cases levels with
  | nil => exact iff_of_true rfl rfl
  | cons first rest => exact iff_of_false (Option.some_ne_none _) (List.cons_ne_nil _ _)

/-- Of two levels the deeper one is kept. -/
theorem le_deeper (a b : LevelPlan) :
    a.owner.ancestors.length ≤ (deeper a b).owner.ancestors.length ∧
      b.owner.ancestors.length ≤ (deeper a b).owner.ancestors.length := by
  unfold deeper
  split
  next less => exact ⟨Nat.le_refl _, Nat.le_of_lt less⟩
  next more => exact ⟨Nat.le_of_not_lt more, Nat.le_refl _⟩

/-- **No level lies deeper than the deepest.** -/
theorem le_of_deepest? {levels : List LevelPlan} {l : LevelPlan} (h : deepest? levels = some l) :
    ∀ l' ∈ levels, l'.owner.ancestors.length ≤ l.owner.ancestors.length := by
  have folded : ∀ (rest : List LevelPlan) (first : LevelPlan), ∀ l' ∈ first :: rest,
      l'.owner.ancestors.length ≤ (rest.foldl deeper first).owner.ancestors.length := by
    intro rest
    induction rest with
    | nil =>
      intro first l' hl'
      rw [List.mem_singleton.mp hl']
      exact Nat.le_refl _
    | cons next rest ih =>
      intro first l' hl'
      obtain ⟨kept_first, kept_next⟩ := le_deeper first next
      have later := ih (deeper first next)
      rcases List.mem_cons.mp hl' with rfl | hl'
      · exact Nat.le_trans kept_first (later _ List.mem_cons_self)
      rcases List.mem_cons.mp hl' with rfl | hl'
      · exact Nat.le_trans kept_next (later _ List.mem_cons_self)
      · exact later l' (List.mem_cons_of_mem _ hl')
  cases levels with
  | nil => cases h
  | cons first rest =>
    cases h
    exact folded rest first

/-! ## The type of a row -/

section

variable {e : EntityHead} {row : Row}

theorem typeOf_of_vertical (vertical : e.strategy = .vertical) : typeOf e row = levelType e row := by
  unfold typeOf
  rw [vertical]

/-- Where no level is there, the declared type is told. -/
theorem typeOf_of_absent (vertical : e.strategy = .vertical) (absent : ∀ l, ¬ e.Present row l) :
    typeOf e row = e.declared := by
  have none_there : e.levels.filter (fun l => l.role == .subclass && l.isPresent row) = [] :=
    List.eq_nil_iff_forall_not_mem.mpr fun l hl => absent l (mem_filter_present.mp hl)
  rw [typeOf_of_vertical vertical, levelType, none_there]
  rfl

/-- **Else a level that is there tells its type, and no other type that is told by one extends it.** -/
theorem exists_present_typeOf (vertical : e.strategy = .vertical) {some_level : LevelPlan}
    (there : e.Present row some_level) : ∃ l, e.Present row l ∧ typeOf e row = l.owner ∧
      ∀ l', e.Present row l' → l.owner ∈ l'.owner.lineage → l'.owner = l.owner := by
  rw [typeOf_of_vertical vertical, levelType]
  cases found : deepest? (e.levels.filter fun l => l.role == .subclass && l.isPresent row) with
  | none =>
    have mem := mem_filter_present.mpr there
    rw [deepest?_eq_none_iff.mp found] at mem
    cases mem
  | some l =>
    refine ⟨l, mem_filter_present.mp (mem_of_deepest? found), rfl, fun l' there' extends_ => ?_⟩
    rcases TypeModel.eq_or_lt_of_mem_lineage extends_ with same | less
    · exact same.symm
    · have bound := le_of_deepest? found l' (mem_filter_present.mpr there')
      exact absurd less (Nat.not_lt_of_le bound)

/-- **On one line of inheritance the type that is told extends all others**, and only it does. -/
theorem typeOf_of_line (vertical : e.strategy = .vertical) {some_level : LevelPlan}
    (there : e.Present row some_level) {t : TypeModel}
    (line : ∀ l, e.Present row l → l.owner ∈ t.lineage) :
    (∀ l, e.Present row l → l.owner ∈ (typeOf e row).lineage) ∧
    ∀ l, e.Present row l → (∀ l', e.Present row l' → l'.owner ∈ l.owner.lineage) →
      l.owner = typeOf e row := by
  obtain ⟨top, top_there, told, top_most⟩ := exists_present_typeOf vertical there
  rw [told]
  constructor
  · intro l hl
    rcases TypeModel.lineage_total (line l hl) (line top top_there) with below | above
    · exact below
    · rw [top_most l hl above]
      exact TypeModel.self_mem_lineage _
  · exact fun l hl extends_all => top_most l hl (extends_all top top_there)

end

/-! ## Main result -/

/-- The subclass levels of an entity, in a vertical hierarchy, are those of the descendants of its type.
The key of a level is that of the type, read from the table of the level. -/
theorem Plan.Entity.Walked.subclass_levels {s : Schema} {e : Entity} (walked : e.Walked s)
    (vertical : e.head.strategy = .vertical) :
    ∃ below, s.descendants e.head.declared = .ok below ∧
      (e.head.levels.filter (·.role == .subclass)).map (·.owner) = below ∧
      ∀ l ∈ e.head.levels,
        l.keyLabels = e.head.declared.idFields.map fun id => l.path ++ "." ++ id.name := by
  obtain @⟨name, target, layout, path, _, _, _, _, _, members, _, describes, lays, -⟩ := walked
  obtain ⟨-, declared⟩ := sound_of_layout ⟨name, describes⟩ lays
  have keys : ∀ l ∈ (placedLevels path layout).map (levelPlan layout.declared.idFields),
      l.keyLabels = layout.declared.idFields.map fun id => l.path ++ "." ++ id.name := fun l hl => by
    obtain ⟨placed, -, rfl⟩ := List.mem_map.mp hl
    rfl
  have subclasses : (((placedLevels path layout).map (levelPlan layout.declared.idFields)).filter
      (·.role == .subclass)).map (·.owner) = layout.below.map (·.owner) := by
    unfold placedLevels
    rw [List.filter_map, List.map_map, List.filter_append, List.filter_cons, List.filter_map,
      List.filter_map]
    have above : ∀ level : Level, (((fun l : LevelPlan => l.role == .subclass) ∘
        levelPlan layout.declared.idFields) ∘ placedBeside path .ancestor) level = false :=
      fun _ => rfl
    have below : ∀ level : Level, (((fun l : LevelPlan => l.role == .subclass) ∘
        levelPlan layout.declared.idFields) ∘ placedBeside path .subclass) level = true :=
      fun _ => rfl
    rw [List.filter_eq_nil_iff.mpr fun level _ => Bool.eq_false_iff.mp (above level),
      List.filter_eq_self.mpr fun level _ => below level]
    simp [levelPlan, placedBeside]
  cases laid_of_layout lays with
  | discriminated => cases vertical
  | @vertical below above levels main alone descend placed spread =>
    refine ⟨below, descend, subclasses.trans ?_, keys⟩
    have owners := congrArg (List.map (·.1)) (map_subclassLevels placed)
    rw [List.map_map, List.map_map] at owners
    exact owners.trans (List.map_id' below)

/-- **The type that a row of a vertical hierarchy tells.** The subclass levels are those of the
descendants of the declared type, and each is there in a row if one of its key labels is not NULL. Where
none is there, the row tells the declared type. Otherwise it tells the type of a level that is there, and
no type of another one extends that. If the types of the levels that are there lie on one line of
inheritance, the row tells the one that extends all of them; no other does; and the order of the levels
makes no difference. -/
theorem Plan.typeOf_most_specific {s : Schema} {name : String} {p : Plan}
    (built : Plan.build s name = .ok p) {e : Entity} (he : e ∈ p.entities)
    (vertical : e.head.strategy = .vertical) :
    (∃ below, s.descendants e.head.declared = .ok below ∧
      (e.head.levels.filter (·.role == .subclass)).map (·.owner) = below ∧
      ∀ l ∈ e.head.levels,
        l.keyLabels = e.head.declared.idFields.map fun id => l.path ++ "." ++ id.name) ∧
    ∀ row : Row,
      ((∀ l, ¬ e.head.Present row l) → typeOf e.head row = e.head.declared) ∧
      ((∃ l, e.head.Present row l) → ∃ l, e.head.Present row l ∧ typeOf e.head row = l.owner ∧
        ∀ l', e.head.Present row l' → l.owner ∈ l'.owner.lineage → l'.owner = l.owner) ∧
      ((∃ l, e.head.Present row l) → (∃ t : TypeModel, ∀ l, e.head.Present row l → l.owner ∈ t.lineage) →
        (∀ l, e.head.Present row l → (typeOf e.head row).isA l.owner.name = true ∧
          l.owner ∈ (typeOf e.head row).lineage) ∧
        (∀ l, e.head.Present row l → (∀ l', e.head.Present row l' → l'.owner ∈ l.owner.lineage) →
          l.owner = typeOf e.head row) ∧
        ∀ levels, levels.Perm e.head.levels →
          typeOf { e.head with levels := levels } row = typeOf e.head row) := by
  obtain ⟨asked, ⟨derivation⟩⟩ := derivation_of_build built
  have walked := derivation.walked e he
  refine ⟨walked.subclass_levels vertical, fun row => ⟨typeOf_of_absent vertical, ?_, ?_⟩⟩
  · exact fun ⟨_, there⟩ => exists_present_typeOf vertical there
  rintro ⟨some_level, there⟩ ⟨t, line⟩
  obtain ⟨extends_all, only⟩ := typeOf_of_line vertical there line
  refine ⟨fun l hl => ⟨?_, extends_all l hl⟩, only, fun levels perm => ?_⟩
  · have described := walked.describes_typeOf row
    exact (isA_iff_mem_lineage described (described.of_mem_lineage (extends_all l hl))).mpr
      (extends_all l hl)
  · -- the same levels are there, so what the other order tells extends all of them as well
    have same_levels : ∀ l, ({ e.head with levels := levels } : EntityHead).Present row l ↔
        e.head.Present row l := fun l => and_congr_left fun _ => perm.mem_iff
    have there' := (same_levels some_level).mpr there
    obtain ⟨l, hl, told, -⟩ := exists_present_typeOf (e := { e.head with levels := levels }) vertical there'
    obtain ⟨extends_all', -⟩ := typeOf_of_line (e := { e.head with levels := levels }) vertical there'
      fun l hl => line l ((same_levels l).mp hl)
    rw [told] at extends_all' ⊢
    exact only l ((same_levels l).mp hl) fun l' hl' => extends_all' l' ((same_levels l').mpr hl')

/-- Persons may be customers or employees, and employees may be managers. -/
def firm : Schema where
  sources := [⟨.runtime, [
    { name := "Person", table := some ⟨none, "person"⟩, subclasses := ["Employee", "Customer"],
      fields := [{ name := "id", type := .value .int, attrs := { id := some true } }] },
    { name := "Employee", table := some ⟨none, "employee"⟩, superclass := some "Person",
      subclasses := ["Manager"], fields := [{ name := "salary", type := .value .int }] },
    { name := "Manager", table := some ⟨none, "manager"⟩, superclass := some "Employee",
      fields := [{ name := "bonus", type := .value .int }] },
    { name := "Customer", table := some ⟨none, "customer"⟩, superclass := some "Person",
      fields := [{ name := "discount", type := .value .int }] }]⟩]

/-- A person with a row in the table of the employees and one in that of the managers. -/
def managerRow : Row :=
  .ofPairs [("person.id", .int 1), ("person.employee.id", .int 1), ("person.manager.id", .int 1)]

/-- The levels that are there in the row are those of the employees and of the managers, and the row
tells a manager, also where the levels come in the other order. -/
theorem typeOf_most_specific_firm : ∃ p e, Plan.build firm "Person" = .ok p ∧ e ∈ p.entities ∧
    e.head.strategy = .vertical ∧ (typeOf e.head managerRow).name = "Manager" ∧
    (∃ l, e.head.Present managerRow l) ∧
    (∀ l, e.head.Present managerRow l → (typeOf e.head managerRow).isA l.owner.name = true) ∧
    ∀ levels, levels.Perm e.head.levels →
      typeOf { e.head with levels := levels } managerRow = typeOf e.head managerRow := by
  obtain ⟨p, built, found⟩ := ok_of_map (x := Plan.build firm "Person")
    (f := fun p => p.entities.head?.map fun e => (e.head.strategy, (typeOf e.head managerRow).name,
      (e.head.levels.filter fun l => l.role == .subclass && l.isPresent managerRow).map (·.owner.name),
      (e.head.levels.filter fun l => l.role == .subclass && l.isPresent managerRow).all fun l =>
        decide (l.owner ∈ (typeOf e.head managerRow).lineage)))
    (b := some (.vertical, "Manager", ["Employee", "Manager"], true)) (by decide +kernel)
  obtain ⟨e, first, shown⟩ := Option.map_eq_some_iff.mp found
  simp only [Prod.mk.injEq] at shown
  obtain ⟨vertical, told, names, line⟩ := shown
  have he : e ∈ p.entities := List.mem_of_head? first
  have there : ∃ l, e.head.Present managerRow l := by
    obtain ⟨l, hl, -⟩ := List.mem_map.mp (names ▸ List.mem_cons_self)
    exact ⟨l, mem_filter_present.mp hl⟩
  have on_line : ∃ t : TypeModel, ∀ l, e.head.Present managerRow l → l.owner ∈ t.lineage :=
    ⟨_, fun l hl => of_decide_eq_true (List.all_eq_true.mp line l (mem_filter_present.mpr hl))⟩
  obtain ⟨-, each⟩ := Plan.typeOf_most_specific built he vertical
  obtain ⟨-, -, tells⟩ := each managerRow
  obtain ⟨extends_all, -, order⟩ := tells there on_line
  exact ⟨p, e, built, he, vertical, told, there, fun l hl => (extends_all l hl).1, order⟩

end Orm
