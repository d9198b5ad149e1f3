import Orm.Proofs.Assembly.Depiction
import Orm.Proofs.Assembly.Linking
import Orm.Proofs.Plan.Coverage

/-!
# `Proofs.Assembly.Slots` — what a new object has

A hierarchy is spread over tables when a plan is made, the levels are walked as one entity, and when a
row makes an object, the members that do not belong to the type that the row tells are passed over.
These three steps add up to the fields of that type: a new object has a value for each single field
that the type stores, declared or inherited, an empty list for each relation that leads to many, and
at most value objects besides. Which type of the hierarchy was asked for makes no difference, nor does
the way it is spread over tables.

## Contents
- **Fields.** `names_set`, `Populated.nodup`.
- **Steps.** `value_readColumns`, `get?_readColumns`, `get?_populateEmbedded`, `get?_emptyLists_or`,
  `get?_of_steps`, `value_of_steps`.
- **Members of a type.** `Entity.Walked.own_iff`, `column_iff`, `field_of_value`, `list_iff`.
- **Main result.** `Object.NewOf`, `Plan.create_newOf`.
-/

namespace Orm

open Schema Plan Assembly

/-! ## Fields -/

section

variable {s : Schema} {row : Row} {path name : String} {applies : FieldModel → Bool}
  {chain : List String} {fields result : Fields} {m : Members}
  {columns : List (FieldModel × String)}
  {relations : List (FieldModel × RelationKind × EntityHead × Members)}

namespace Fields

/-- The names of fields. -/
def names (fields : Fields) : List String :=
  fields.toList.map (·.1)

theorem names_cons (name : String) (slot : Slot) (rest : Fields) :
    (cons name slot rest).names = name :: rest.names := by
  cases slot <;> rfl

/-- Setting a field adds its name, unless it is there. -/
theorem names_set (name : String) (slot : Slot) (fields : Fields) :
    (fields.set name slot).names =
      if name ∈ fields.names then fields.names else fields.names ++ [name] := by
  induction fields with
  | nil => exact names_cons name slot .nil
  | leaf other content rest ih =>
    have own : (leaf other content rest).names = other :: rest.names := rfl
    rw [set, own]
    by_cases here : other = name
    · subst here
      rw [if_pos rfl, names_cons, if_pos List.mem_cons_self]
    · have kept : (leaf other content (rest.set name slot)).names =
          other :: (rest.set name slot).names := rfl
      rw [if_neg here, kept, ih]
      by_cases mem : name ∈ rest.names
      · rw [if_pos mem, if_pos (List.mem_cons_of_mem other mem)]
      · rw [if_neg mem, if_neg (List.not_mem_cons_of_ne_of_not_mem (Ne.symm here) mem)]
        rfl
  | embedded other typeName path inner rest _ ih =>
    have own : (embedded other typeName path inner rest).names = other :: rest.names := rfl
    rw [set, own]
    by_cases here : other = name
    · subst here
      rw [if_pos rfl, names_cons, if_pos List.mem_cons_self]
    · have kept : (embedded other typeName path inner (rest.set name slot)).names =
          other :: (rest.set name slot).names := rfl
      rw [if_neg here, kept, ih]
      by_cases mem : name ∈ rest.names
      · rw [if_pos mem, if_pos (List.mem_cons_of_mem other mem)]
      · rw [if_neg mem, if_neg (List.not_mem_cons_of_ne_of_not_mem (Ne.symm here) mem)]
        rfl

theorem nodup_set (distinct : fields.names.Nodup) (name : String) (slot : Slot) :
    (fields.set name slot).names.Nodup := by
  rw [names_set]
  split
  · exact distinct
  next free =>
    refine List.nodup_append.mpr ⟨distinct, List.nodup_singleton name, ?_⟩
    rintro other old new here rfl
    exact free (List.mem_singleton.mp here ▸ old)

end Fields

/-- **The names of populated fields are distinct**: setting a field adds no name twice. -/
theorem Populated.nodup {made : Fields × List (List String)}
    (h : Populated s row path applies m chain made) : made.1.names.Nodup := by
  have making : Making s row path (fun (_ : Unit) _ _ => True) fun _ fields => fields.names.Nodup :=
    { empty := fun _ => List.nodup_nil
      value := fun _ _ _ _ distinct => Fields.nodup_set distinct _ _
      list := fun _ _ _ _ distinct => Fields.nodup_set distinct _ _
      embedded := fun _ _ _ => ⟨(), trivial, fun _ distinct => Fields.nodup_set distinct _ _⟩ }
  exact making.populated (i := ()) trivial h

/-! ## Steps -/

/-- A field holds a single value. -/
def HoldsValue (slot : Option Slot) : Prop :=
  ∃ v, slot = some (.leaf (.value v))

/-- A field that has a value, or for which there is a column that applies, has a value in the end. -/
theorem value_readColumns (h : readColumns s row path applies columns fields = .ok result)
    (reads : HoldsValue (fields.get? name) ∨ ∃ c ∈ columns, applies c.1 = true ∧ c.1.name = name) :
    HoldsValue (result.get? name) := by
  induction columns generalizing fields with
  | nil =>
    cases h
    exact reads.resolve_right fun ⟨_, mem, _⟩ => List.not_mem_nil mem
  | cons c rest ih =>
    unfold readColumns at h
    split at h
    next =>
      obtain ⟨value, -, later⟩ := ok_bind.mp h
      refine ih later ?_
      rw [Fields.get?_set]
      by_cases here : c.1.name = name
      · rw [if_pos here]
        exact .inl ⟨value, rfl⟩
      · rw [if_neg here]
        refine reads.imp_right ?_
        rintro ⟨c', mem, applies_c, same⟩
        refine ⟨c', (List.mem_cons.mp mem).resolve_left fun first => here ?_, applies_c, same⟩
        rw [← first, same]
    next foreign =>
      refine ih h (reads.imp_right ?_)
      rintro ⟨c', mem, applies_c, same⟩
      refine ⟨c', (List.mem_cons.mp mem).resolve_left fun first => foreign ?_, applies_c, same⟩
      rw [← first, applies_c]

/-- A field is as it was, or it has a value from a column that applies. -/
theorem get?_readColumns (h : readColumns s row path applies columns fields = .ok result) :
    result.get? name = fields.get? name ∨ HoldsValue (result.get? name) ∧
      ∃ c ∈ columns, applies c.1 = true ∧ c.1.name = name := by
  by_cases reads : ∃ c ∈ columns, applies c.1 = true ∧ c.1.name = name
  · exact .inr ⟨value_readColumns h (.inr reads), reads⟩
  left
  induction columns generalizing fields with
  | nil =>
    cases h
    rfl
  | cons c rest ih =>
    have others : ¬ ∃ c ∈ rest, applies c.1 = true ∧ c.1.name = name := by
      rintro ⟨c', mem, own⟩
      exact reads ⟨c', List.mem_cons_of_mem _ mem, own⟩
    unfold readColumns at h
    split at h
    next applies_c =>
      obtain ⟨value, -, later⟩ := ok_bind.mp h
      have elsewhere : c.1.name ≠ name := fun same =>
        reads ⟨c, List.mem_cons_self, applies_c, same⟩
      rw [ih later others, Fields.get?_set, if_neg elsewhere]
    next => exact ih h others

/-- A field is as it was, or it has a value object that applies. -/
theorem get?_populateEmbedded {made : Fields × List (List String)}
    (h : populateEmbedded s row path m applies chain fields = .ok made) :
    made.1.get? name = fields.get? name ∨ (∃ inner, made.1.get? name = some (.embedded inner)) ∧
      ∃ v ∈ m.embeddeds, applies v.1 = true ∧ v.1.name = name := by
  induction m generalizing fields made with
  | nil =>
    cases h
    exact .inl rfl
  | column f label rest ih => exact ih h
  | relation f kind child inner rest _ ih => exact ih h
  | embedded f u inner rest _ ih =>
    have beside : ∀ {made : Option Slot}, ((∃ inner, made = some (.embedded inner)) ∧
          ∃ v ∈ rest.embeddeds, applies v.1 = true ∧ v.1.name = name) →
        (∃ inner, made = some (.embedded inner)) ∧
          ∃ v ∈ (Members.embedded f u inner rest).embeddeds, applies v.1 = true ∧ v.1.name = name :=
      fun ⟨value, v, mem, own⟩ => ⟨value, v, List.mem_cons_of_mem _ mem, own⟩
    unfold populateEmbedded at h
    split at h
    next applies_f =>
      obtain ⟨values, -, h⟩ := ok_bind.mp h
      obtain ⟨deep, -, h⟩ := ok_bind.mp h
      obtain ⟨later, run, result⟩ := ok_bind.mp h
      cases result
      rcases ih run with kept | set
      · show later.1.get? name = _ ∨ (∃ inner, later.1.get? name = _) ∧ _
        rw [kept]
        split
        · rw [Fields.get?_set]
          by_cases here : f.name = name
          · rw [if_pos here]
            exact .inr ⟨⟨_, rfl⟩, _, List.mem_cons_self, applies_f, here⟩
          · rw [if_neg here]
            exact .inl rfl
        · exact .inl rfl
      · exact .inr (beside set)
    next => exact (ih h).imp_right beside

/-- A field is as it was, or it has the empty list of a relation that applies and leads to many. -/
theorem get?_emptyLists_or :
    (emptyLists applies chain relations fields).1.get? name = fields.get? name ∨
      (emptyLists applies chain relations fields).1.get? name = some (.leaf (.list [])) ∧
        ∃ r ∈ relations, applies r.1 = true ∧ r.2.1.isMany = true ∧ r.1.name = name := by
  by_cases lists : ∃ r ∈ relations, applies r.1 = true ∧ r.2.1.isMany = true ∧ r.1.name = name
  · obtain ⟨r, hr, here, many, rfl⟩ := lists
    exact .inr ⟨get?_emptyLists hr here many fields, r, hr, here, many, rfl⟩
  left
  induction relations generalizing fields with
  | nil => rfl
  | cons r rest ih =>
    have others : ¬ ∃ r ∈ rest, applies r.1 = true ∧ r.2.1.isMany = true ∧ r.1.name = name := by
      rintro ⟨r', mem, own⟩
      exact lists ⟨r', List.mem_cons_of_mem _ mem, own⟩
    unfold emptyLists
    dsimp only
    split
    next here =>
      obtain ⟨applies_r, many⟩ := Bool.and_eq_true_iff.mp here
      have elsewhere : r.1.name ≠ name := fun same =>
        lists ⟨r, List.mem_cons_self, applies_r, many, same⟩
      rw [ih others, Fields.get?_set, if_neg elsewhere]
    next => exact ih others

/-- Fields that were not there before the three steps are there for a column, for a value object or for
a list, and for something that applies. -/
theorem get?_of_steps (read : readColumns s row path applies columns .nil = .ok fields)
    {made : Fields × List (List String)}
    (below : populateEmbedded s row path m applies chain fields = .ok made)
    (whole : (emptyLists applies chain relations made.1).1 = result) :
    result.get? name = none ∨
      (∃ v, result.get? name = some (.leaf (.value v))) ∧
        (∃ c ∈ columns, applies c.1 = true ∧ c.1.name = name) ∨
      (∃ inner, result.get? name = some (.embedded inner)) ∧
        (∃ v ∈ m.embeddeds, applies v.1 = true ∧ v.1.name = name) ∨
      result.get? name = some (.leaf (.list [])) ∧
        ∃ r ∈ relations, applies r.1 = true ∧ r.2.1.isMany = true ∧ r.1.name = name := by
  subst whole
  rcases get?_emptyLists_or with kept | listed
  · rw [kept]
    rcases get?_populateEmbedded below with kept | inside
    · rw [kept]
      rcases get?_readColumns read with none | holds
      · exact .inl none
      · exact .inr (.inl holds)
    · exact .inr (.inr (.inl inside))
  · exact .inr (.inr (.inr listed))

/-- A field with a column that applies has its value, unless a value object or a list does apply. -/
theorem value_of_steps (read : readColumns s row path applies columns .nil = .ok fields)
    {made : Fields × List (List String)}
    (below : populateEmbedded s row path m applies chain fields = .ok made)
    (whole : (emptyLists applies chain relations made.1).1 = result)
    (reads : ∃ c ∈ columns, applies c.1 = true ∧ c.1.name = name)
    (outside : ¬ ∃ v ∈ m.embeddeds, applies v.1 = true ∧ v.1.name = name)
    (unlisted : ¬ ∃ r ∈ relations, applies r.1 = true ∧ r.2.1.isMany = true ∧ r.1.name = name) :
    HoldsValue (result.get? name) := by
  subst whole
  have kept : (emptyLists applies chain relations made.1).1.get? name = made.1.get? name :=
    get?_emptyLists_or.resolve_right fun listed => unlisted listed.2
  have kept' := (get?_populateEmbedded below).resolve_right fun inside => outside inside.2
  rw [kept, kept']
  exact value_readColumns read (.inr reads)

end

/-! ## Members of a type -/

theorem isMany_relationKind (f : FieldModel) : (relationKind f).isMany = f.cardinality.isMany := by
  unfold relationKind
  cases f.cardinality.isMany with
  | false => rfl
  | true => cases f.link <;> rfl

/-- The fields of a described type are owned by it or by a type that it extends. -/
theorem isA_of_mem_allFields {s : Schema} {t : TypeModel} (described : s.Describes t)
    {f : FieldModel} (hf : f ∈ t.allFields) : t.isA f.owner = true := by
  obtain ⟨l, hl, inLayer⟩ := mem_allFields.mp hf
  have owner := (described.hasLayer l hl).owner inLayer
  exact List.any_eq_true.mpr ⟨l, hl, beq_iff_eq.mpr owner.symm⟩

theorem Plan.Members.Typed.of_mem_fields {s : Schema} {P : FieldModel → Prop} {m : Members}
    (h : m.Typed s P) {f : FieldModel} (hf : f ∈ m.fields) : P f := by
  induction m with
  | nil => cases hf
  | column g label rest ih =>
    rcases List.mem_cons.mp hf with rfl | later
    · exact h.1.1
    · exact ih h.2 later
  | embedded g t inner rest _ ih =>
    rcases List.mem_cons.mp hf with rfl | later
    · exact h.1.1
    · exact ih h.2.2 later
  | relation g kind child inner rest _ ih =>
    rcases List.mem_cons.mp hf with rfl | later
    · exact h.1.1
    · exact ih h.2 later

/-- **The members that belong to the type of a row are the fields that the type stores.** -/
theorem Plan.Entity.Walked.own_iff {s : Schema} {e : Entity} (walked : e.Walked s) (row : Row)
    {f : FieldModel} :
    f ∈ e.members.fields ∧ (typeOf e.head row).isA f.owner = true ↔
      f ∈ (typeOf e.head row).allFields ∧ f.transient = false := by
  have described := walked.describes_typeOf row
  constructor
  · rintro ⟨mem, isA⟩
    have own := (walked.typed described).of_mem_fields mem isA
    exact ⟨own, (walked.mem_fields_iff row own).mp mem⟩
  · rintro ⟨own, stored⟩
    exact ⟨(walked.mem_fields_iff row own).mpr stored, isA_of_mem_allFields described own⟩

section

variable {s : Schema} {e : Plan.Entity} {row : Row} {name : String}

/-- The columns that are read are the single fields that the type stores. -/
theorem Plan.Entity.Walked.column_iff (walked : e.Walked s) :
    (∃ c ∈ e.members.columns, (typeOf e.head row).isA c.1.owner = true ∧ c.1.name = name) ↔
      ∃ f ∈ (typeOf e.head row).allFields, f.transient = false ∧ f.isSingle = true ∧
        f.name = name := by
  have typed := walked.typed (walked.describes_typeOf row)
  constructor
  · rintro ⟨c, mem, isA, same⟩
    obtain ⟨field, single⟩ := (Members.mem_columns_iff typed).mp ⟨c.2, mem⟩
    obtain ⟨own, stored⟩ := (walked.own_iff row).mp ⟨field, isA⟩
    exact ⟨c.1, own, stored, single, same⟩
  · rintro ⟨f, own, stored, single, same⟩
    obtain ⟨field, isA⟩ := (walked.own_iff row).mpr ⟨own, stored⟩
    obtain ⟨label, mem⟩ := (Members.mem_columns_iff typed).mpr ⟨field, single⟩
    exact ⟨(f, label), mem, isA, same⟩

/-- The value objects that are made are for embedded fields that the type stores. -/
theorem Plan.Entity.Walked.field_of_value (walked : e.Walked s)
    (h : ∃ v ∈ e.members.embeddeds, (typeOf e.head row).isA v.1.owner = true ∧ v.1.name = name) :
    ∃ f ∈ (typeOf e.head row).allFields, f.transient = false ∧ f.isEmbedded = true ∧
      f.name = name := by
  obtain ⟨v, mem, isA, same⟩ := h
  have typed := walked.typed (walked.describes_typeOf row)
  obtain ⟨field, embedded⟩ := Members.mem_fields_of_mem_embeddeds typed mem
  obtain ⟨own, stored⟩ := (walked.own_iff row).mp ⟨field, isA⟩
  exact ⟨v.1, own, stored, embedded, same⟩

/-- The lists that are made are for the relations to many that the type stores. -/
theorem Plan.Entity.Walked.list_iff (walked : e.Walked s) :
    (∃ r ∈ e.members.relations, (typeOf e.head row).isA r.1.owner = true ∧
        r.2.1.isMany = true ∧ r.1.name = name) ↔
      ∃ f ∈ (typeOf e.head row).allFields, f.transient = false ∧ f.isRelation = true ∧
        f.cardinality.isMany = true ∧ f.name = name := by
  have typed := walked.typed (walked.describes_typeOf row)
  constructor
  · rintro ⟨r, mem, isA, many, same⟩
    obtain ⟨-, relation, kind⟩ := typed.relations r mem
    obtain ⟨field, -⟩ := (Members.mem_relations_iff typed).mp ⟨r, mem, rfl⟩
    obtain ⟨own, stored⟩ := (walked.own_iff row).mp ⟨field, isA⟩
    rw [kind, isMany_relationKind] at many
    exact ⟨r.1, own, stored, relation, many, same⟩
  · rintro ⟨f, own, stored, relation, many, same⟩
    obtain ⟨field, isA⟩ := (walked.own_iff row).mpr ⟨own, stored⟩
    obtain ⟨r, mem, rfl⟩ := (Members.mem_relations_iff typed).mpr ⟨field, relation⟩
    refine ⟨r, mem, isA, ?_, same⟩
    rw [(typed.relations r mem).2.2, isMany_relationKind, many]

end

/-! ## Main result -/

/-- An object is as it is made of a type. It has a value for each single field that the type stores, an
empty list for each relation that leads to many, and besides at most value objects. -/
structure Object.NewOf (t : TypeModel) (o : Object) : Prop where
  typeName : o.typeName = t.name
  distinct : (o.fields.toList.map (·.1)).Nodup
  values : ∀ name, (∃ v, o.get? name = some (.leaf (.value v))) ↔
    ∃ f ∈ t.allFields, f.transient = false ∧ f.isSingle = true ∧ f.name = name
  lists : ∀ name ids, o.get? name = some (.leaf (.list ids)) ↔ ids = [] ∧
    ∃ f ∈ t.allFields, f.transient = false ∧ f.isRelation = true ∧ f.cardinality.isMany = true ∧
      f.name = name
  others : ∀ name slot, o.get? name = some slot →
    (∃ v, slot = .leaf (.value v)) ∨ slot = .leaf (.list []) ∨
      (∃ inner, slot = .embedded inner) ∧
        ∃ f ∈ t.allFields, f.transient = false ∧ f.isEmbedded = true ∧ f.name = name

/-- **What a row makes has the fields of the type that the row tells.** -/
theorem newOf_of_create {s : Schema} (named : s.NamesFields) {e : Entity} (walked : e.Walked s)
    {row : Row} {key : Key} {i : Instance} (h : create s row e.head e.members key = .ok i) :
    i.object.NewOf (typeOf e.head row) := by
  obtain ⟨made, populated, h⟩ := ok_bind.mp h
  cases h
  have distinct := (populate_eq_ok_iff.mp populated).nodup
  obtain ⟨values, deep, read, below, rfl⟩ := populate_eq_ok_iff.mp populated
  set type := typeOf e.head row
  generalize whole :
    (emptyLists (fun f => type.isA f.owner) [] e.members.relations deep.1).1 = fields
  have slot : ∀ name, fields.get? name = none ∨ _ := fun name => get?_of_steps read below whole
  -- names tell the fields of the type apart, so only one of the steps sets a field
  have one : ∀ {f g : FieldModel}, f ∈ type.allFields → g ∈ type.allFields → f.name = g.name →
      f = g := fun hf hg same =>
    named.eq_of_name_eq (walked.describes_typeOf row) hf hg same
  have get : ∀ name, (Object.mk type.name e.head.path fields).get? name = fields.get? name :=
    fun _ => rfl
  constructor
  case typeName => rfl
  case distinct =>
    rw [← whole]
    exact distinct
  case values =>
    intro name
    rw [get]
    constructor
    · rintro ⟨v, found⟩
      rcases slot name with none | ⟨-, reads⟩ | ⟨⟨inner, value⟩, -⟩ | ⟨empty, -⟩
      · cases none.symm.trans found
      · exact walked.column_iff.mp reads
      · cases value.symm.trans found
      · cases empty.symm.trans found
    · rintro ⟨f, own, stored, single, same⟩
      refine value_of_steps read below whole
        (walked.column_iff.mpr ⟨f, own, stored, single, same⟩) (fun inside => ?_) fun listed => ?_
      · obtain ⟨g, mem, -, embedded, same'⟩ := walked.field_of_value inside
        obtain rfl := one own mem (same.trans same'.symm)
        exact Members.not_single_of_embedded embedded single
      · obtain ⟨g, mem, -, relation, -, same'⟩ := walked.list_iff.mp listed
        obtain rfl := one own mem (same.trans same'.symm)
        exact Members.not_single_of_relation relation single
  case lists =>
    intro name ids
    rw [get]
    constructor
    · intro found
      rcases slot name with none | ⟨⟨v, value⟩, -⟩ | ⟨⟨inner, value⟩, -⟩ | ⟨empty, listed⟩
      · cases none.symm.trans found
      · cases value.symm.trans found
      · cases value.symm.trans found
      · cases empty.symm.trans found
        exact ⟨rfl, walked.list_iff.mp listed⟩
    · rintro ⟨rfl, fits⟩
      obtain ⟨r, mem, isA, many, rfl⟩ := walked.list_iff.mpr fits
      rw [← whole]
      exact get?_emptyLists mem isA many deep.1
  case others =>
    intro name content found
    rw [get] at found
    rcases slot name with none | ⟨⟨v, value⟩, -⟩ | ⟨⟨inner, value⟩, inside⟩ | ⟨empty, -⟩
    · cases none.symm.trans found
    · cases value.symm.trans found
      exact .inl ⟨v, rfl⟩
    · cases value.symm.trans found
      exact .inr (.inr ⟨⟨inner, rfl⟩, walked.field_of_value inside⟩)
    · cases empty.symm.trans found
      exact .inr (.inl rfl)

/-- **A new object has exactly the fields of its type**, the declared type of the entity or a
descendant: whatever type was asked for, and however the hierarchy is spread over tables. -/
theorem Plan.create_newOf {s : Schema} {name : String} {p : Plan}
    (built : Plan.build s name = .ok p) (named : s.NamesFields) {e : Entity} (he : e ∈ p.entities)
    {row : Row} {key : Key} {i : Instance} (made : create s row e.head e.members key = .ok i) :
    i.type = typeOf e.head row ∧
      (∃ below, s.descendants e.head.declared = .ok below ∧ i.type ∈ e.head.declared :: below) ∧
      i.object.NewOf i.type := by
  obtain ⟨root, -, wired⟩ := wired_of_build built
  have walked := wired.walked e he
  obtain ⟨-, -, type⟩ := eq_of_create made
  obtain ⟨below, descend, told⟩ := walked.typeOf_mem
  rw [type]
  exact ⟨rfl, ⟨below, descend, told row⟩, newOf_of_create named walked made⟩

/-- Of the staff, the first row makes an employee and the last a person who is none: only the employee
has a list of projects. -/
theorem create_newOf_staff : ∃ p e key, Plan.build staff "Person" = .ok p ∧ e ∈ p.entities ∧
    ∃ i j, create staff (staffRows.getD 0 (.ofPairs [])) e.head e.members key = .ok i ∧
      create staff (staffRows.getD 2 (.ofPairs [])) e.head e.members key = .ok j ∧
      i.object.NewOf i.type ∧ (i.type.name, i.object.fields.names) = ("Employee", ["id", "name", "projects"]) ∧
      j.object.NewOf j.type ∧ (j.type.name, j.object.fields.names) = ("Person", ["id", "name"]) := by
  let names (e : Entity) (n : Nat) : Option (String × List String) :=
    ((create staff (staffRows.getD n (.ofPairs [])) e.head e.members ⟨[]⟩).toOption.map
      fun i => (i.type.name, i.object.fields.names))
  obtain ⟨p, built, found⟩ := ok_of_map (x := Plan.build staff "Person")
    (f := fun p => p.entities.head?.map fun e => (names e 0, names e 2))
    (b := some (some ("Employee", ["id", "name", "projects"]), some ("Person", ["id", "name"])))
    (by decide +kernel)
  obtain ⟨e, first, rows⟩ := Option.map_eq_some_iff.mp found
  obtain ⟨employee, person⟩ := Prod.mk.inj rows
  obtain ⟨i, made_i, slots_i⟩ := ok_of_map employee
  obtain ⟨j, made_j, slots_j⟩ := ok_of_map person
  have he : e ∈ p.entities := List.mem_of_head? first
  have named : staff.NamesFields := by decide +kernel
  obtain ⟨-, -, new_i⟩ := Plan.create_newOf built named he made_i
  obtain ⟨-, -, new_j⟩ := Plan.create_newOf built named he made_j
  exact ⟨p, e, ⟨[]⟩, built, he, i, j, made_i, made_j, new_i, slots_i, new_j, slots_j⟩

end Orm
