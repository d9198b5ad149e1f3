import Orm.Proofs.Assembly.Populating
import Orm.Proofs.Assembly.Uniformity

/-!
# `Proofs.Assembly.Filling` — value objects that a row fills

When an object is made, its value objects are made from the innermost out, and one without data is left
out together with all that is in it: the empty collections, too. So whether there is a value object at the
end of a chain of fields is decided at the far ends of the chain. It is there just if some single value in
it, however deep, is not NULL in the row.

## Contents
- **Data.** `Row.Fills`, `Slot.HasData`, `hasData_iff`.
- **Cells.** `Members.mem_cells_iff`, `Members.exists_cell_behind_iff`.
- **Value objects.** `Populated.exists_embedded`, `Populated.hasData_iff`.
- **Chains.** `Schema.ValueChain`, `Object.HasValue`, `Populated.hasValue_iff`.
-/

namespace Orm

open Schema Plan Assembly

/-! ## Data -/

/-- A column of a row is not NULL. -/
def Row.Fills (row : Row) (label : String) : Prop :=
  (row.getOrNull label).isNull = false

/-- A field has a value that is not NULL, or a value object. -/
def Slot.HasData : Slot → Prop
  | .leaf (.value v) => v.isNull = false
  | .leaf _ => False
  | .embedded _ => True

namespace Fields

theorem mem_names_of_get? {fields : Fields} {name : String} {slot : Slot}
    (h : fields.get? name = some slot) : name ∈ fields.names := by
  induction fields with
  | nil => cases h
  | leaf other content rest ih =>
    unfold get? at h
    split at h
    next here => exact here ▸ List.mem_cons_self
    next => exact List.mem_cons_of_mem _ (ih h)
  | embedded other typeName path inner rest _ ih =>
    unfold get? at h
    split at h
    next here => exact here ▸ List.mem_cons_self
    next => exact List.mem_cons_of_mem _ (ih h)

/-- What is found in fields is found in the first of them or in the others. -/
theorem exists_get?_cons {name : String} {slot : Slot} {rest : Fields} (free : name ∉ rest.names)
    {P : Slot → Prop} : (∃ n found, (cons name slot rest).get? n = some found ∧ P found) ↔
      P slot ∨ ∃ n found, rest.get? n = some found ∧ P found := by
  constructor
  · rintro ⟨n, found, at_n, holds⟩
    rw [get?_cons] at at_n
    split at at_n
    · cases at_n
      exact .inl holds
    · exact .inr ⟨n, found, at_n, holds⟩
  · rintro (holds | ⟨n, found, at_n, holds⟩)
    · exact ⟨name, slot, by rw [get?_cons, if_pos rfl], holds⟩
    · have other : name ≠ n := fun same => free (same ▸ mem_names_of_get? at_n)
      exact ⟨n, found, by rw [get?_cons, if_neg other, at_n], holds⟩

end Fields

/-- A value object has data just if one of its fields has. -/
theorem hasData_iff {fields : Fields} (distinct : fields.names.Nodup) :
    hasData fields = true ↔ ∃ name slot, fields.get? name = some slot ∧ slot.HasData := by
  induction fields with
  | nil => exact iff_of_false Bool.false_ne_true fun ⟨_, _, found, _⟩ => nomatch found
  | leaf name content rest ih =>
    obtain ⟨free, later⟩ := List.nodup_cons.mp distinct
    have first_or_later : (∃ n found, (Fields.cons name (.leaf content) rest).get? n = some found ∧
        found.HasData) ↔ _ := Fields.exists_get?_cons free
    refine Iff.trans ?_ first_or_later.symm
    rw [← ih later]
    cases content with
    | value v =>
      show (!v.isNull || hasData rest) = true ↔ _
      rw [Bool.or_eq_true, Bool.not_eq_true']
      exact Iff.rfl
    | ref | list | array => exact (or_iff_right id).symm
  | embedded name typeName path inner rest _ _ =>
    refine iff_of_true rfl ⟨name, .embedded ⟨typeName, path, inner⟩, ?_, trivial⟩
    exact if_pos rfl

/-! ## Cells -/

theorem Plan.Members.cells_eq_map (m : Members) (chain : List FieldModel) :
    m.cells chain = (m.cells []).map fun c => ⟨chain ++ c.chain, c.field, c.label⟩ := by
  induction m generalizing chain with
  | nil => rfl
  | column f label rest ih =>
    simp only [cells]
    rw [ih, List.map_cons, List.append_nil]
  | relation f kind child inner rest _ ih => exact ih chain
  | embedded f t inner rest inner_ih ih =>
    simp only [cells]
    rw [inner_ih (chain ++ [f]), inner_ih ([] ++ [f]), ih, List.map_append, List.map_map]
    refine congrArg (· ++ _) (List.map_congr_left fun c _ => ?_)
    simp

section

variable {s : Schema} {row : Row} {path name : String} {applies : FieldModel → Bool} {m : Members}
  {chain : List String} {fields : Fields} {made : Fields × List (List String)} {t : TypeModel}

/-- A cell of members is a column of theirs, or a cell of a value object. -/
theorem Plan.Members.mem_cells_iff {c : Cell} :
    c ∈ m.cells [] ↔ (∃ k ∈ m.columns, c = ⟨[], k.1, k.2⟩) ∨
      ∃ v ∈ m.embeddeds, ∃ y ∈ v.2.2.cells [], c = ⟨v.1 :: y.chain, y.field, y.label⟩ := by
  induction m with
  | nil => simp [cells, columns, embeddeds]
  | relation f kind child inner rest _ ih => exact ih
  | column f label rest ih =>
    simp only [cells, columns, embeddeds, List.mem_cons, ih, or_and_right, exists_or, exists_eq_left]
    exact or_assoc.symm
  | embedded f u inner rest _ ih =>
    have first : inner.cells ([] ++ [f]) =
        (inner.cells []).map fun c => ⟨f :: c.chain, c.field, c.label⟩ := inner.cells_eq_map [f]
    simp only [cells, columns, embeddeds, List.mem_append, first, ih, List.mem_map,
      List.exists_mem_cons_iff]
    constructor
    · rintro (⟨y, hy, rfl⟩ | own | below)
      · exact .inr (.inl ⟨y, hy, rfl⟩)
      · exact .inl own
      · exact .inr (.inr below)
    · rintro (own | ⟨y, hy, rfl⟩ | below)
      · exact .inr (.inl own)
      · exact .inl ⟨y, hy, rfl⟩
      · exact .inr (.inr below)

/-- A cell behind a chain is filled just if one behind the rest of it is filled in a value object that the
chain begins with. -/
theorem Plan.Members.exists_cell_behind_iff {f : FieldModel} {fs : List FieldModel} :
    (∃ c ∈ m.cells [], f :: fs <+: c.chain ∧ row.Fills c.label) ↔
      ∃ v ∈ m.embeddeds, v.1 = f ∧ ∃ y ∈ v.2.2.cells [], fs <+: y.chain ∧ row.Fills y.label := by
  constructor
  · rintro ⟨c, hc, sub, fills⟩
    rcases mem_cells_iff.mp hc with ⟨k, -, rfl⟩ | ⟨v, hv, y, hy, rfl⟩
    · exact absurd (List.prefix_nil.mp sub) (List.cons_ne_nil _ _)
    · obtain ⟨rfl, tail⟩ := List.cons_prefix_cons.mp sub
      exact ⟨v, hv, rfl, y, hy, tail, fills⟩
  · rintro ⟨v, hv, rfl, y, hy, sub, fills⟩
    exact ⟨_, mem_cells_iff.mpr (.inr ⟨v, hv, y, hy, rfl⟩), List.cons_prefix_cons.mpr ⟨rfl, sub⟩, fills⟩

/-! ## Value objects -/

/-- A value was there before, or it was read from the column of a field that applies. -/
theorem value_of_readColumns {columns : List (FieldModel × String)} {fields result : Fields} {v : Value}
    (h : readColumns s row path applies columns fields = .ok result)
    (found : result.get? name = some (.leaf (.value v))) :
    fields.get? name = some (.leaf (.value v)) ∨
      ∃ c ∈ columns, applies c.1 = true ∧ c.1.name = name ∧ (v.isNull = false ↔ row.Fills c.2) := by
  induction columns generalizing fields with
  | nil =>
    cases h
    exact .inl found
  | cons c rest ih =>
    unfold readColumns at h
    split at h
    next own =>
      obtain ⟨value, read, later⟩ := ok_bind.mp h
      rcases ih later with before | ⟨c', hc', told⟩
      case inr => exact .inr ⟨c', List.mem_cons_of_mem _ hc', told⟩
      rw [Fields.get?_set] at before
      split at before
      next here =>
        cases before
        refine .inr ⟨c, List.mem_cons_self, own, here, ?_⟩
        obtain ⟨constants, -, fits⟩ := ok_bind.mp read
        split at fits
        next coerced =>
          cases fits
          rw [FieldModel.isNull_of_coerce coerced]
          exact Iff.rfl
        next => cases fits
      next => exact .inl before
    next =>
      rcases ih h with before | ⟨c', hc', told⟩
      · exact .inl before
      · exact .inr ⟨c', List.mem_cons_of_mem _ hc', told⟩

/-- **A single value was read from the column of a field that applies.** -/
theorem Populated.value (h : Populated s row path applies m chain made) {v : Value}
    (found : made.1.get? name = some (.leaf (.value v))) :
    ∃ c ∈ m.columns, applies c.1 = true ∧ c.1.name = name ∧ (v.isNull = false ↔ row.Fills c.2) := by
  obtain ⟨values, deep, read, below, rfl⟩ := h
  have kept : deep.1.get? name = some (.leaf (.value v)) := by
    have or_list : (emptyLists applies chain m.relations deep.1).1.get? name = deep.1.get? name ∨ _ :=
      get?_emptyLists_or
    rcases or_list with kept | ⟨listed, -⟩
    · exact kept.symm.trans found
    · cases listed.symm.trans found
  have read_value : values.get? name = some (.leaf (.value v)) := by
    have or_value : deep.1.get? name = values.get? name ∨ _ := get?_populateEmbedded below
    rcases or_value with kept' | ⟨⟨inner, value⟩, -⟩
    · exact kept'.symm.trans kept
    · cases value.symm.trans kept
  exact (value_of_readColumns read read_value).resolve_left nofun

/-- A field with a column that applies has a value. -/
theorem Populated.exists_value (h : Populated s row path applies m chain made)
    (plain : m.Plain s t applies) {c : FieldModel × String} (hc : c ∈ m.columns)
    (own : applies c.1 = true) : ∃ v, made.1.get? c.1.name = some (.leaf (.value v)) := by
  obtain ⟨distinct, columns, relations, embeddeds, described, -⟩ := plain
  obtain ⟨values, deep, read, below, rfl⟩ := h
  obtain ⟨mem, single⟩ := columns c hc own
  refine value_of_steps read below rfl ⟨c, hc, own, rfl⟩ ?_ ?_
  · rintro ⟨v, hv, own_v, same⟩
    obtain ⟨name, cls, -⟩ := described v hv
    rw [← distinct.eq_of_name_eq (embeddeds v hv own_v) mem same] at single
    exact Members.not_single_of_embedded (Members.isEmbedded_of_cls cls) single
  · rintro ⟨r, hr, own_r, -, same⟩
    obtain ⟨mem_r, relation, -⟩ := relations r hr own_r
    rw [← distinct.eq_of_name_eq mem_r mem same] at single
    exact Members.not_single_of_relation relation single

/-- A field that holds a value object goes on holding one. -/
theorem embedded_of_get?_populateEmbedded {o : Object}
    (h : populateEmbedded s row path m applies chain fields = .ok made)
    (found : fields.get? name = some (.embedded o)) :
    ∃ o, made.1.get? name = some (.embedded o) := by
  have or_value : made.1.get? name = fields.get? name ∨ _ := get?_populateEmbedded h
  rcases or_value with kept | ⟨value, -⟩
  · exact ⟨o, kept.trans found⟩
  · exact value

theorem exists_of_populateEmbedded
    (h : populateEmbedded s row path m applies chain fields = .ok made)
    {v : FieldModel × TypeModel × Members} (hv : v ∈ m.embeddeds) (own : applies v.1 = true) :
    ∃ value, Populated s row path (fun _ => true) v.2.2 (chain ++ [v.1.name]) value ∧
      (hasData value.1 = true → ∃ o, made.1.get? v.1.name = some (.embedded o)) := by
  induction m generalizing fields made with
  | nil => cases hv
  | column f label rest ih => exact ih h hv
  | relation f kind child inner rest _ ih => exact ih h hv
  | embedded f u inner rest _ ih =>
    by_cases own_f : applies f = true
    · obtain ⟨value, later, populated, beside, rfl⟩ := (populateEmbedded_eq_ok_iff own_f).mp h
      rcases List.mem_cons.mp hv with rfl | hv
      · refine ⟨value, populated, fun data => ?_⟩
        rw [if_pos data] at beside
        have set_here : (fields.set f.name (.embedded ⟨u.name, path, value.1⟩)).get? f.name =
            some (.embedded ⟨u.name, path, value.1⟩) := by
          rw [Fields.get?_set, if_pos rfl]
        obtain ⟨o, found⟩ := embedded_of_get?_populateEmbedded beside set_here
        exact ⟨o, found⟩
      · obtain ⟨value, populated, there⟩ := ih beside hv
        exact ⟨value, populated, there⟩
    · rw [populateEmbedded_of_not own_f] at h
      rcases List.mem_cons.mp hv with rfl | hv
      · exact absurd own own_f
      · exact ih h hv

/-- **A value object that applies is made, and it is there if it has data.** -/
theorem Populated.exists_embedded (h : Populated s row path applies m chain made)
    (plain : m.Plain s t applies) {v : FieldModel × TypeModel × Members} (hv : v ∈ m.embeddeds)
    (own : applies v.1 = true) :
    ∃ value, Populated s row path (fun _ => true) v.2.2 (chain ++ [v.1.name]) value ∧
      (hasData value.1 = true → ∃ o, made.1.get? v.1.name = some (.embedded o)) := by
  obtain ⟨distinct, -, relations, embeddeds, described, -⟩ := plain
  obtain ⟨values, deep, -, below, rfl⟩ := h
  obtain ⟨value, populated, there⟩ := exists_of_populateEmbedded below hv own
  refine ⟨value, populated, fun data => ?_⟩
  obtain ⟨o, found⟩ := there data
  refine ⟨o, ?_⟩
  have or_list : (emptyLists applies chain m.relations deep.1).1.get? v.1.name =
      deep.1.get? v.1.name ∨ _ := get?_emptyLists_or
  rcases or_list with kept | ⟨-, r, hr, own_r, -, same⟩
  · exact kept.trans found
  · obtain ⟨mem_r, relation, -⟩ := relations r hr own_r
    obtain ⟨name, cls, -⟩ := described v hv
    rw [distinct.eq_of_name_eq mem_r (embeddeds v hv own) same, not_relation_of_embedded cls] at relation
    cases relation

/-- A value object in a field of the type was made of a member of that field. -/
theorem Populated.embedded_of_field (h : Populated s row path applies m chain made)
    (plain : m.Plain s t applies) {f : FieldModel} (mem : f ∈ t.allFields) {o : Object}
    (found : made.1.get? f.name = some (.embedded o)) : ∃ v ∈ m.embeddeds, v.1 = f ∧ ∃ value,
      Populated s row path (fun _ => true) v.2.2 (chain ++ [f.name]) value ∧
        hasData value.1 = true ∧ o = ⟨v.2.1.name, path, value.1⟩ := by
  obtain ⟨distinct, -, -, embeddeds, -, -⟩ := plain
  obtain ⟨v, hv, own, same, made_of⟩ := h.embedded found
  exact ⟨v, hv, distinct.eq_of_name_eq (embeddeds v hv own) mem same, made_of⟩

/-- **A value object has data just if the row fills a cell of it**, however deep. -/
theorem Populated.hasData_iff (plain : m.Plain s t applies) (uniform : m.Uniform)
    (whole : ∀ f, applies f = true) (h : Populated s row path applies m chain made) :
    hasData made.1 = true ↔ ∃ c ∈ m.cells [], row.Fills c.label := by
  induction plain generalizing chain made with
  | @intro t applies m distinct columns relations embeddeds described inside ih =>
  have plain : m.Plain s t applies := .intro distinct columns relations embeddeds described inside
  obtain ⟨same_label, -, uniform_inside⟩ := uniform
  rw [Orm.hasData_iff h.nodup]
  constructor
  · rintro ⟨name, slot, found, data⟩
    cases slot with
    | embedded o =>
      obtain ⟨v, hv, -, -, value, populated, full, rfl⟩ := h.embedded found
      obtain ⟨y, hy, fills⟩ := (ih v hv (uniform_inside v hv) (fun _ => rfl) populated).mp full
      exact ⟨_, Members.mem_cells_iff.mpr (.inr ⟨v, hv, y, hy, rfl⟩), fills⟩
    | leaf content =>
      cases content with
      | value v =>
        obtain ⟨c, hc, -, -, fills⟩ := h.value found
        exact ⟨_, Members.mem_cells_iff.mpr (.inl ⟨c, hc, rfl⟩), fills.mp data⟩
      | ref | list | array => cases data
  · rintro ⟨c, hc, fills⟩
    rcases Members.mem_cells_iff.mp hc with ⟨k, hk, rfl⟩ | ⟨v, hv, y, hy, rfl⟩
    · obtain ⟨value, found⟩ := h.exists_value plain hk (whole k.1)
      obtain ⟨k', hk', own', name, told⟩ := h.value found
      have one := distinct.eq_of_name_eq (columns k' hk' own').1 (columns k hk (whole k.1)).1 name
      refine ⟨_, _, found, told.mpr ?_⟩
      rw [same_label k' hk' k hk one]
      exact fills
    · obtain ⟨value, populated, there⟩ := h.exists_embedded plain hv (whole v.1)
      have data := (ih v hv (uniform_inside v hv) (fun _ => rfl) populated).mpr ⟨y, hy, fills⟩
      obtain ⟨o, found⟩ := there data
      exact ⟨_, _, found, trivial⟩

end

/-! ## Chains -/

theorem Object.embedded?_of_get? {o inner : Object} {name : String}
    (h : o.get? name = some (.embedded inner)) : o.embedded? name = some inner := by
  unfold embedded?
  rw [h]

/-- A chain of embedded fields leads from a type into its value objects. -/
inductive Schema.ValueChain (s : Schema) : TypeModel → List FieldModel → Prop where
  | here {t : TypeModel} {f : FieldModel} {name : String} (mem : f ∈ t.allFields)
      (cls : f.cls = .embedded name) : ValueChain s t [f]
  | inside {t u : TypeModel} {f : FieldModel} {name : String} {fs : List FieldModel}
      (mem : f ∈ t.allFields) (cls : f.cls = .embedded name) (describes : s.describe name = .ok u)
      (rest : ValueChain s u fs) : ValueChain s t (f :: fs)

/-- There is a value object at a path. -/
def Object.HasValue (o : Object) (path : List String) : Prop :=
  ∃ inner, o.at? path = some (.embedded inner)

theorem Schema.ValueChain.ne_nil {s : Schema} {t : TypeModel} {fs : List FieldModel}
    (h : s.ValueChain t fs) : fs ≠ [] := by
  cases h <;> exact List.cons_ne_nil _ _

/-- **At the end of a chain there is a value object just if the row fills a cell behind the chain.** -/
theorem Populated.hasValue_iff {s : Schema} {row : Row} {path : String} {applies : FieldModel → Bool}
    {m : Members} {chain : List String} {made : Fields × List (List String)} {t : TypeModel}
    {fs : List FieldModel} (leads : s.ValueChain t fs)
    (h : Populated s row path applies m chain made) (plain : m.Plain s t applies)
    (uniform : m.Uniform) (all : ∀ f ∈ t.allFields, applies f = true) {typeName at_ : String} :
    (Object.mk typeName at_ made.1).HasValue (fs.map (·.name)) ↔
      ∃ c ∈ m.cells [], fs <+: c.chain ∧ row.Fills c.label := by
  induction leads generalizing m applies chain made typeName at_ with
  | @here t f _ mem _ =>
    have plain_here := plain
    obtain ⟨-, -, -, -, -, inside⟩ := plain
    obtain ⟨-, -, uniform_inside⟩ := uniform
    rw [Members.exists_cell_behind_iff]
    constructor
    · rintro ⟨o, found⟩
      obtain ⟨v, hv, same, value, populated, data, -⟩ := h.embedded_of_field plain_here mem found
      obtain ⟨y, hy, fills⟩ :=
        (populated.hasData_iff (inside v hv) (uniform_inside v hv) fun _ => rfl).mp data
      exact ⟨v, hv, same, y, hy, List.nil_prefix, fills⟩
    · rintro ⟨v, hv, rfl, y, hy, -, fills⟩
      obtain ⟨value, populated, there⟩ := h.exists_embedded plain_here hv (all _ mem)
      exact there ((populated.hasData_iff (inside v hv) (uniform_inside v hv) fun _ => rfl).mpr
        ⟨y, hy, fills⟩)
  | @inside t u f name rest mem cls describes leads ih =>
    have plain_here := plain
    obtain ⟨-, -, -, -, described, inside⟩ := plain
    obtain ⟨-, same_cells, uniform_inside⟩ := uniform
    have names : rest.map (·.name) ≠ [] := mt List.map_eq_nil_iff.mp leads.ne_nil
    have type_eq : ∀ v ∈ m.embeddeds, v.1 = f → v.2.1 = u := by
      rintro v hv rfl
      obtain ⟨name', cls', describes'⟩ := described v hv
      cases cls.symm.trans cls'
      exact Except.ok.inj (describes'.symm.trans describes)
    rw [Members.exists_cell_behind_iff]
    unfold Object.HasValue
    rw [List.map_cons, Object.at?_cons _ names]
    constructor
    · rintro ⟨o, found⟩
      obtain ⟨inner, value, deeper⟩ := Option.bind_eq_some_iff.mp found
      obtain ⟨v, hv, same, w, populated, -, rfl⟩ :=
        h.embedded_of_field plain_here mem (Object.get?_of_embedded? value)
      obtain rfl := type_eq v hv same
      exact ⟨v, hv, same,
        (ih populated (inside v hv) (uniform_inside v hv) fun _ _ => rfl).mp ⟨o, deeper⟩⟩
    · rintro ⟨v, hv, rfl, y, hy, sub, fills⟩
      obtain ⟨value, populated, there⟩ := h.exists_embedded plain_here hv (all _ mem)
      have data := (populated.hasData_iff (inside v hv) (uniform_inside v hv) fun _ => rfl).mpr
        ⟨y, hy, fills⟩
      obtain ⟨o, found⟩ := there data
      -- what is there may come of another member of the same field, which has the same cells
      obtain ⟨v', hv', one, value', populated', -, rfl⟩ := h.embedded_of_field plain_here mem found
      obtain rfl := type_eq v' hv' one
      rw [same_cells v hv v' hv' one.symm] at hy
      have deeper : (Object.mk v'.2.1.name path value'.1).HasValue (rest.map (·.name)) :=
        (ih populated' (inside v' hv') (uniform_inside v' hv') fun _ _ => rfl).mpr ⟨y, hy, sub, fills⟩
      obtain ⟨inner, deeper⟩ := deeper
      exact ⟨inner, Option.bind_eq_some_iff.mpr ⟨_, Object.embedded?_of_get? found, deeper⟩⟩

end Orm
