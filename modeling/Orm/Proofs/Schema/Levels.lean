import Orm.Proofs.Outcome
import Orm.Schema.Layout

/-!
# `Proofs.Schema.Levels` — which fields lie in which table

A layout spreads the fields of a type over tables. This module says where each of them goes. Without a
discriminator, every type of the ancestry that declares a table has a level, and the fields of a type
without one go to the next table below it, or to the last table if none follows; behind these levels
comes one for each descendant, with the fields of the descendant alone. With a discriminator there is
one level, on the most specific table of the ancestry, and it holds everything.

## Contents
- **Ancestries.** `Spread`, `Spread.owners`, `Spread.fields`, `Spread.home`.
- **From pending fields to levels.** `ancestorLevels_eq_nil_iff`, `leftover_of_bare`,
  `spread_ancestorLevels`.
- **Layouts.** `Layout.Laid`, `laid_of_layout`, `map_subclassLevels`, `Layout.le_mainIndex`.
- **Main result.** `levels_of_layout`.
-/

namespace Orm.Schema

open Sql

/-! ## Ancestries -/

/-- Levels hold the fields of an ancestry, the root-most type first. A level is that of a type with a
table; it holds the fields of the types without a table that stand right above its owner, and those of
the owner. The last level also holds the fields of all types that follow its owner. -/
inductive Spread : List TypeModel → List Level → Prop where
  | last {above below : List TypeModel} {owner : TypeModel} {table : TableName}
      (declares : owner.table = some table) (bare : ∀ t ∈ above, t.table = none)
      (bare' : ∀ t ∈ below, t.table = none) :
      Spread (above ++ owner :: below)
        [⟨table, owner, (above ++ owner :: below).flatMap (·.fields)⟩]
  | next {above types : List TypeModel} {owner : TypeModel} {table : TableName}
      {levels : List Level} (declares : owner.table = some table)
      (bare : ∀ t ∈ above, t.table = none) (rest : Spread types levels) :
      Spread (above ++ owner :: types)
        (⟨table, owner, (above ++ [owner]).flatMap (·.fields)⟩ :: levels)

theorem filter_of_bare {types : List TypeModel} (bare : ∀ t ∈ types, t.table = none) :
    types.filter (·.table.isSome) = [] := by
  refine List.filter_eq_nil_iff.mpr fun t ht => ?_
  rw [bare t ht]
  exact Bool.false_ne_true

namespace Spread

variable {types : List TypeModel} {levels : List Level}

/-- **There is one level for each type that declares a table**, in the order of the types. -/
theorem owners (h : Spread types levels) :
    levels.map (fun level => (level.owner, some level.table)) =
      (types.filter (·.table.isSome)).map fun t => (t, t.table) := by
  induction h with
  | last declares bare bare' =>
    simp [filter_of_bare bare, filter_of_bare bare', declares]
  | next declares bare rest ih =>
    simp [filter_of_bare bare, declares, ih]

/-- **The levels hold the fields of the types**, each once and in order. -/
theorem fields (h : Spread types levels) :
    levels.flatMap (·.fields) = types.flatMap (·.fields) := by
  induction h with
  | last => simp
  | next _ _ _ ih => simp [ih]

theorem ne_nil (h : Spread types levels) : levels ≠ [] := by
  cases h <;> exact List.cons_ne_nil _ _

/-- The last level is that of the last type that declares a table. -/
theorem home (h : Spread types levels) {last : Level} (final : levels.getLast? = some last) :
    ∃ above below, types = above ++ last.owner :: below ∧ last.owner.table = some last.table ∧
      ∀ t ∈ below, t.table = none := by
  induction h with
  | last declares bare bare' =>
    cases final
    exact ⟨_, _, rfl, declares, bare'⟩
  | @next above types owner table levels declares bare rest ih =>
    have later : levels.getLast? = some last := by
      rw [List.getLast?_cons_of_ne_nil rest.ne_nil] at final
      exact final
    obtain ⟨front, below, whole, owned, bare'⟩ := ih later
    exact ⟨above ++ owner :: front, below, by simp [whole], owned, bare'⟩

end Spread

/-! ## From pending fields to levels -/

/-- Only types without a table make no level. -/
theorem ancestorLevels_eq_nil_iff {pending : List FieldModel} {types : List TypeModel} :
    (ancestorLevels pending types).1 = [] ↔ ∀ t ∈ types, t.table = none := by
  induction types generalizing pending with
  | nil => exact iff_of_true rfl fun _ ht => absurd ht List.not_mem_nil
  | cons t rest ih =>
    unfold ancestorLevels
    cases table : t.table with
    | none =>
      dsimp only
      rw [ih, List.forall_mem_cons]
      exact (and_iff_right table).symm
    | some name =>
      refine iff_of_false (List.cons_ne_nil _ _) fun bare => ?_
      cases table.symm.trans (bare t List.mem_cons_self)

/-- Where no type has a table, all fields are left over. -/
theorem leftover_of_bare {pending : List FieldModel} {types : List TypeModel}
    (bare : ∀ t ∈ types, t.table = none) :
    (ancestorLevels pending types).2 = pending ++ types.flatMap (·.fields) := by
  induction types generalizing pending with
  | nil => exact (List.append_nil pending).symm
  | cons t rest ih =>
    obtain ⟨here, later⟩ := List.forall_mem_cons.mp bare
    unfold ancestorLevels
    rw [here, List.flatMap_cons, ← List.append_assoc]
    exact ih later

theorem splitLast?_eq_none_iff {levels : List Level} : splitLast? levels = none ↔ levels = [] := by
  cases levels with
  | nil => exact iff_of_true rfl rfl
  | cons level rest =>
    refine iff_of_false ?_ (List.cons_ne_nil _ _)
    unfold splitLast?
    cases splitLast? rest <;> exact Option.some_ne_none _

/-- **The levels of an ancestry are spread over it**, once the last has taken the fields that are left
over. Some types without a table may be pending already. -/
theorem spread_ancestorLevels {pending types : List TypeModel} {above : List Level} {last : Level}
    (bare : ∀ t ∈ pending, t.table = none)
    (split : splitLast? (ancestorLevels (pending.flatMap (·.fields)) types).1 = some (above, last)) :
    Spread (pending ++ types) (above ++ [{ last with
      fields := last.fields ++ (ancestorLevels (pending.flatMap (·.fields)) types).2 }]) := by
  induction types generalizing pending above with
  | nil => cases split
  | cons t rest ih =>
    unfold ancestorLevels at split ⊢
    cases table : t.table with
    | none =>
      -- the type joins those that wait for a table
      have bare' : ∀ u ∈ pending ++ [t], u.table = none := by
        intro u hu
        rcases List.mem_append.mp hu with waits | here
        · exact bare u waits
        · rw [List.mem_singleton.mp here]
          exact table
      have joined : pending.flatMap (·.fields) ++ t.fields = (pending ++ [t]).flatMap (·.fields) := by
        simp
      rw [table, joined] at split
      rw [joined, List.append_cons]
      exact ih bare' split
    | some name =>
      rw [table] at split
      dsimp only at split ⊢
      unfold splitLast? at split
      cases found : splitLast? (ancestorLevels [] rest).1 with
      | none =>
        -- no table follows, so that the level takes all that is left
        have none_below := ancestorLevels_eq_nil_iff.mp (splitLast?_eq_none_iff.mp found)
        rw [found] at split
        cases split
        rw [leftover_of_bare none_below]
        have all := Spread.last table bare none_below
        simpa using all
      | some parts =>
        obtain ⟨front, final⟩ := parts
        rw [found] at split
        cases split
        have below := @ih [] front (fun _ hu => absurd hu List.not_mem_nil) found
        have all := Spread.next table bare below
        simpa using all

/-! ## Layouts -/

/-- How the rows of a hierarchy are told apart, of which a type and its descendants are asked for. -/
def discriminationOf (base declared : TypeModel) (below : List TypeModel) : Discrimination where
  column := base.discriminator.getD ""
  base := base
  candidates := declared :: below
  restrictTo := if base.name == declared.name then none
    else some ((declared :: below).map (·.registeredName))

variable {s : Schema}

/-- What the layout of a type is. In a discriminated hierarchy the table of the last level of the
ancestry holds the fields of the type and of its descendants. Otherwise the levels of the ancestry are
followed by one for each descendant. -/
inductive Layout.Laid (s : Schema) (declared : TypeModel) : Layout → Prop where
  | discriminated {base : TypeModel} {below : List TypeModel} {above : List Level} (home : Level)
      (based : declared.lineage.find? (·.discriminator.isSome) = some base)
      (descend : s.descendants declared = .ok below)
      (spread : Spread declared.lineage (above ++ [home])) :
      Laid s declared ⟨declared, [],
        ⟨home.table, home.owner, declared.allFields ++ below.flatMap (·.fields)⟩, [],
        some (discriminationOf base declared below)⟩
  | vertical {below : List TypeModel} {above levels : List Level} {main : Level}
      (alone : declared.lineage.find? (·.discriminator.isSome) = none)
      (descend : s.descendants declared = .ok below)
      (placed : below.mapM (subclassLevel declared) = .ok levels)
      (spread : Spread declared.lineage (above ++ [main])) :
      Laid s declared ⟨declared, above, main, levels, none⟩

/-- **Every layout is one of these.** -/
theorem laid_of_layout {declared : TypeModel} {l : Layout} (h : s.layout declared = .ok l) :
    l.Laid s declared := by
  unfold layout at h
  dsimp only at h
  split at h
  · cases h
  next above last split_last =>
  let home : Level := { last with
    fields := last.fields ++ (ancestorLevels [] declared.lineage).2 }
  have spread : Spread declared.lineage (above ++ [home]) :=
    spread_ancestorLevels (fun _ ht => absurd ht List.not_mem_nil) split_last
  split at h
  next base based =>
    unfold discriminatedLayout at h
    dsimp only at h
    split at h
    next other =>
      obtain ⟨group, -, rest⟩ := ok_bind.mp h
      split at rest
      · cases rest
      · obtain ⟨below, descend, result⟩ := ok_bind.mp rest
        cases result
        exact .discriminated home based descend spread
    next =>
      obtain ⟨below, descend, result⟩ := ok_bind.mp h
      cases result
      exact .discriminated home based descend spread
  next alone =>
    obtain ⟨below, descend, rest⟩ := ok_bind.mp h
    obtain ⟨levels, placed, result⟩ := ok_bind.mp rest
    cases result
    exact .vertical alone descend placed spread

/-- The level of a descendant holds its own fields. -/
theorem of_subclassLevel {declared sub : TypeModel} {level : Level}
    (h : subclassLevel declared sub = .ok level) : level.owner = sub ∧ level.fields = sub.fields := by
  unfold subclassLevel at h
  split at h
  · cases h
    exact ⟨rfl, rfl⟩
  · cases h

theorem table_of_subclassLevel {declared sub : TypeModel} {level : Level}
    (h : subclassLevel declared sub = .ok level) : sub.table = some level.table := by
  unfold subclassLevel at h
  split at h
  next table declares =>
    cases h
    exact declares
  next => cases h

/-- The levels of descendants are theirs, in order. -/
theorem map_subclassLevels {declared : TypeModel} {below : List TypeModel} {levels : List Level}
    (h : below.mapM (subclassLevel declared) = .ok levels) :
    levels.map (fun level => (level.owner, some level.table, level.fields)) =
      below.map fun t => (t, t.table, t.fields) := by
  induction below generalizing levels with
  | nil =>
    cases h
    rfl
  | cons sub rest ih =>
    obtain ⟨level, others, first, run, rfl⟩ := mapM_cons_ok.mp h
    obtain ⟨owner, fields⟩ := of_subclassLevel first
    rw [List.map_cons, List.map_cons, ih run, owner, fields, table_of_subclassLevel first]

/-- The fields of a type are those of its lineage. -/
theorem allFields_eq_lineage (t : TypeModel) :
    t.allFields = t.lineage.flatMap (·.fields) := by
  rw [TypeModel.allFields, ← TypeModel.map_lineage, List.flatMap_map]

/-- The levels of an ancestry hold its fields and no others. -/
theorem Spread.mem_allFields_iff {t : TypeModel} {levels : List Level} (h : Spread t.lineage levels)
    {f : FieldModel} : (∃ level ∈ levels, f ∈ level.fields) ↔ f ∈ t.allFields := by
  rw [allFields_eq_lineage, ← h.fields, List.mem_flatMap]

/-- The levels of the ancestry are those up to the main one. -/
theorem Layout.le_mainIndex {l : Layout} {i : Nat} {level : Level}
    (h : l.levels[i]? = some (level, .ancestor)) : i ≤ l.mainIndex := by
  refine Nat.le_of_not_lt fun past => ?_
  have beyond : l.levels[i]? = (l.below.map (·, LevelRole.subclass))[i - (l.mainIndex + 1)]? := by
    unfold levels
    rw [List.append_cons, List.getElem?_append_right]
    · rw [List.length_append, List.length_map]
      rfl
    · rw [List.length_append, List.length_map]
      exact past
  rw [beyond] at h
  obtain ⟨sub, -, same⟩ := List.mem_map.mp (List.mem_of_getElem? h)
  cases same

/-- Levels of a plain hierarchy lie in several tables just if there are several. -/
theorem Layout.strategy_eq_vertical_iff {l : Layout} (plain : l.discrimination = none) :
    l.strategy = .vertical ↔ 1 < l.levels.length := by
  have count : l.levels.length = l.above.length + (l.below.length + 1) := by simp [levels]
  unfold strategy
  rw [plain, count]
  cases l.above with
  | nil => cases l.below <;> simp
  | cons first more =>
    refine iff_of_true rfl ?_
    rw [List.length_cons]
    omega

/-! ## Main result -/

/-- **Where the fields of a type lie.** If no type of the ancestry tells its rows apart, there is a level
for each of its types that declares a table, and these levels hold the fields of the whole ancestry, each
once and in order; behind them stands a level for each descendant with its own fields. Several levels
make the strategy vertical. If some type has a discriminator, one level on the last table of the ancestry
holds the fields of the ancestry and then those of the descendants. There is always a level, and the main
one is the last of those for the ancestry. -/
theorem levels_of_layout {declared : TypeModel} {l : Layout} (h : s.layout declared = .ok l) :
    ∃ below, s.descendants declared = .ok below ∧
      ((∀ t ∈ declared.lineage, t.discriminator = none) →
        ∃ ancestral descended : List Level,
          l.levels = ancestral.map (·, .ancestor) ++ descended.map (·, .subclass) ∧
          Spread declared.lineage ancestral ∧
          ancestral.map (fun level => (level.owner, some level.table)) =
            (declared.lineage.filter (·.table.isSome)).map (fun t => (t, t.table)) ∧
          ancestral.flatMap (·.fields) = declared.lineage.flatMap (·.fields) ∧
          descended.map (fun level => (level.owner, some level.table, level.fields)) =
            below.map (fun t => (t, t.table, t.fields)) ∧
          (l.strategy = .vertical ↔ 1 < l.levels.length)) ∧
      ((∃ t ∈ declared.lineage, t.discriminator ≠ none) →
        ∃ above home rest table, declared.lineage = above ++ home :: rest ∧
          home.table = some table ∧ (∀ t ∈ rest, t.table = none) ∧
          l.levels = [(⟨table, home, declared.lineage.flatMap (·.fields) ++
            below.flatMap (·.fields)⟩, .ancestor)]) ∧
      l.levels ≠ [] ∧
      (∃ main, l.levels[l.mainIndex]? = some (main, .ancestor)) ∧
      ∀ i level, l.levels[i]? = some (level, .ancestor) → i ≤ l.mainIndex := by
  have main : ∃ main, l.levels[l.mainIndex]? = some (main, .ancestor) :=
    ⟨l.main, l.getElem?_mainIndex⟩
  have some_level : l.levels ≠ [] := by
    obtain ⟨level, there⟩ := main
    exact List.ne_nil_of_mem (List.mem_of_getElem? there)
  cases laid_of_layout h with
  | @discriminated base below above home based descend spread =>
    refine ⟨below, descend, fun plain => ?_, fun _ => ?_, some_level, main,
      fun _ _ => Layout.le_mainIndex⟩
    · have tells := List.find?_some based
      rw [plain base (List.mem_of_find?_eq_some based)] at tells
      cases tells
    · obtain ⟨front, rest, whole, declares, bare⟩ := spread.home List.getLast?_concat
      refine ⟨front, home.owner, rest, home.table, whole, declares, bare, ?_⟩
      rw [← allFields_eq_lineage]
      rfl
  | @vertical below above levels main_level alone descend placed spread =>
    refine ⟨below, descend, fun _ => ?_, fun ⟨t, ht, tells⟩ => ?_, some_level, main,
      fun _ _ => Layout.le_mainIndex⟩
    · refine ⟨above ++ [main_level], levels, by simp [Layout.levels], spread, spread.owners,
        spread.fields, map_subclassLevels placed, Layout.strategy_eq_vertical_iff rfl⟩
    · have none_tells := List.find?_eq_none.mp alone t ht
      rw [Option.isSome_iff_ne_none] at none_tells
      exact absurd tells none_tells

/-- Types without a table stand above, between and below those that declare one. -/
def agency : Schema where
  sources := [⟨.runtime, [
    { name := "Record",
      fields := [{ name := "id", type := .value .int, attrs := { id := some true } }] },
    { name := "Person", superclass := some "Record", table := some ⟨none, "person"⟩,
      fields := [{ name := "name", type := .value .text }] },
    { name := "Worker", superclass := some "Person",
      fields := [{ name := "badge", type := .value .text }] },
    { name := "Employee", superclass := some "Worker", table := some ⟨none, "employee"⟩,
      fields := [{ name := "salary", type := .value .int }] },
    { name := "Temp", superclass := some "Employee", subclasses := ["Intern"],
      fields := [{ name := "agency", type := .value .text }] },
    { name := "Intern", superclass := some "Temp", table := some ⟨none, "intern"⟩,
      fields := [{ name := "school", type := .value .text }] }]⟩]

theorem levels_of_layout_agency : ∃ t l, agency.describe "Temp" = .ok t ∧ agency.layout t = .ok l ∧
    l.levels.map (fun p => (p.1.table.name, p.1.fields.map (·.name), p.2)) =
      [("person", ["id", "name"], .ancestor), ("employee", ["badge", "salary", "agency"], .ancestor),
        ("intern", ["school"], .subclass)] ∧
    (∃ ancestral descended : List Level,
      l.levels = ancestral.map (·, .ancestor) ++ descended.map (·, .subclass) ∧
      Spread t.lineage ancestral ∧ (l.strategy = .vertical ↔ 1 < l.levels.length)) ∧
    (∃ main, l.levels[l.mainIndex]? = some (main, .ancestor)) ∧
    ∀ i level, l.levels[i]? = some (level, .ancestor) → i ≤ l.mainIndex := by
  obtain ⟨⟨t, l⟩, made, shown⟩ := ok_of_map
    (x := do
      let t ← agency.describe "Temp"
      let l ← agency.layout t
      return (t, l))
    (f := fun p => (p.2.levels.map (fun p => (p.1.table.name, p.1.fields.map (·.name), p.2)),
      p.1.lineage.all (·.discriminator.isNone)))
    (b := ([("person", ["id", "name"], .ancestor),
      ("employee", ["badge", "salary", "agency"], .ancestor), ("intern", ["school"], .subclass)],
      true))
    (by decide)
  obtain ⟨t', described, rest⟩ := ok_bind.mp made
  obtain ⟨l', laid, same⟩ := ok_bind.mp rest
  cases same
  have plain : ∀ u ∈ t.lineage, u.discriminator = none := fun u hu =>
    Option.isNone_iff_eq_none.mp (List.all_eq_true.mp (congrArg Prod.snd shown) u hu)
  obtain ⟨below, -, vertical, -, -, main, last⟩ := levels_of_layout laid
  obtain ⟨ancestral, descended, whole, spread, -, -, -, strategy⟩ := vertical plain
  exact ⟨t, l, described, laid, congrArg Prod.fst shown, ⟨ancestral, descended, whole, spread, strategy⟩,
    main, last⟩

end Orm.Schema
