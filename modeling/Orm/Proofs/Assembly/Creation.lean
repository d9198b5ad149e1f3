import Orm.Proofs.Plan.Sites

/-!
# `Proofs.Assembly.Creation` — new objects

The fields of an object and those of a value object are made in the same three steps: single values are
read, value objects are made of the members in them, and relations to many get empty collections. The three
steps have one name here, `Populated`, and what each of them keeps holds of what they make, `Making`.

A new object has its single values and its value objects, and nothing attached to it: at the path of
each relation of its type lies nothing or an empty list. An object is made whenever the values that
belong to its type can be read.

## Contents
- **Populating.** `Populated`, `populated_of_create`, `populateEmbedded_eq_ok_iff`.
- **Invariants.** `Making`, `Making.populated`.
- **Blank objects.** `Clear`, `Blank`, `Blank.set`, `blank_of_populate`, `list_of_populate`.
- **Creating.** `Created`, `created_of_create`.
- **Success.** `Members.readable`, `readColumns_ok`, `create_ok`.
-/

namespace Orm

open Schema Plan Assembly

/-! ## Populating -/

/-- Some fields are what members that apply are made into, and the paths in front of which a chain
stands are those of the collections of fixed size. -/
def Populated (s : Schema) (row : Row) (path : String) (applies : FieldModel → Bool) (m : Members)
    (chain : List String) (made : Fields × List (List String)) : Prop :=
  ∃ values deep, readColumns s row path applies m.columns .nil = .ok values ∧
    populateEmbedded s row path m applies chain values = .ok deep ∧
    made = ((emptyLists applies chain m.relations deep.1).1,
      deep.2 ++ (emptyLists applies chain m.relations deep.1).2)

section

variable {s : Schema} {row : Row} {path name : String} {applies : FieldModel → Bool} {m : Members}
  {chain : List String} {fields : Fields} {made : Fields × List (List String)} {o : Object}

theorem populate_eq_ok_iff {type : TypeModel} :
    populate s row path type m = .ok made ↔
      Populated s row path (fun f => type.isA f.owner) m [] made := by
  constructor
  · intro h
    obtain ⟨values, read, h⟩ := ok_bind.mp h
    obtain ⟨deep, below, h⟩ := ok_bind.mp h
    cases h
    exact ⟨values, deep, read, below, rfl⟩
  · rintro ⟨values, deep, read, below, rfl⟩
    exact ok_bind.mpr ⟨values, read, ok_bind.mpr ⟨deep, below, rfl⟩⟩

/-- **A new object is populated with the members that belong to the type that its row tells.** -/
theorem populated_of_create {e : EntityHead} {key : Key} {i : Instance}
    (h : create s row e m key = .ok i) :
    Populated s row e.path (fun f => (typeOf e row).isA f.owner) m [] (i.object.fields, i.arrays) ∧
      i.object = ⟨(typeOf e row).name, e.path, i.object.fields⟩ := by
  obtain ⟨made, populated, h⟩ := ok_bind.mp h
  cases h
  exact ⟨populate_eq_ok_iff.mp populated, rfl⟩

/-- **A value object is populated like an object**, and is set unless it has no data. -/
theorem populateEmbedded_eq_ok_iff {f : FieldModel} {t : TypeModel} {inner rest : Members}
    (own : applies f = true) :
    populateEmbedded s row path (.embedded f t inner rest) applies chain fields = .ok made ↔
      ∃ value later, Populated s row path (fun _ => true) inner (chain ++ [f.name]) value ∧
        populateEmbedded s row path rest applies chain
          (if hasData value.1 then fields.set f.name (.embedded ⟨t.name, path, value.1⟩)
            else fields) = .ok later ∧
        made = (later.1, value.2 ++ later.2) := by
  have opened : populateEmbedded s row path (.embedded f t inner rest) applies chain fields = _ :=
    if_pos own
  rw [opened]
  constructor
  · intro h
    obtain ⟨values, read, h⟩ := ok_bind.mp h
    obtain ⟨deep, below, h⟩ := ok_bind.mp h
    obtain ⟨later, beside, h⟩ := ok_bind.mp h
    cases h
    refine ⟨((emptyLists (fun _ => true) (chain ++ [f.name]) inner.relations deep.1).1,
      deep.2 ++ (emptyLists (fun _ => true) (chain ++ [f.name]) inner.relations deep.1).2), later,
      ⟨values, deep, read, below, rfl⟩, beside, rfl⟩
  · rintro ⟨value, later, ⟨values, deep, read, below, rfl⟩, beside, rfl⟩
    refine ok_bind.mpr ⟨values, read, ok_bind.mpr ⟨deep, below, ?_⟩⟩
    exact ok_bind.mpr ⟨later, beside, rfl⟩

/-- A value object that does not belong to the object is passed over. -/
theorem populateEmbedded_of_not {f : FieldModel} {t : TypeModel} {inner rest : Members}
    (foreign : ¬ applies f = true) :
    populateEmbedded s row path (.embedded f t inner rest) applies chain fields =
      populateEmbedded s row path rest applies chain fields :=
  if_neg foreign

end

/-! ## Invariants -/

/-- What each step of making an object keeps. Fields start out empty. For a member that applies, a value that
was read is set, an empty list, or a value object; the fields of the latter are made in the same steps, for
an index of their own. -/
structure Making {ι : Type} (s : Schema) (row : Row) (path : String)
    (Fit : ι → (FieldModel → Bool) → Members → Prop) (I : ι → Fields → Prop) : Prop where
  empty : ∀ i, I i .nil
  value : ∀ {i applies m c v fields}, Fit i applies m → c ∈ m.columns → applies c.1 = true →
    Assembly.readValue s row path c.1 c.2 = .ok v → I i fields → I i (fields.set c.1.name (.leaf (.value v)))
  list : ∀ {i applies m r fields}, Fit i applies m → r ∈ m.relations → applies r.1 = true →
    r.2.1.isMany = true → I i fields → I i (fields.set r.1.name (.leaf (.list [])))
  embedded : ∀ {i applies m v}, Fit i applies m → v ∈ m.embeddeds → applies v.1 = true →
    ∃ j, Fit j (fun _ => true) v.2.2 ∧ ∀ {inner fields}, I j inner → I i fields →
      I i (fields.set v.1.name (.embedded ⟨v.2.1.name, path, inner⟩))

namespace Making

variable {ι : Type} {s : Schema} {row : Row} {path : String}
  {Fit : ι → (FieldModel → Bool) → Members → Prop} {I : ι → Fields → Prop} {i : ι}
  {applies : FieldModel → Bool} {m : Members} {chain : List String} {fields : Fields}

theorem readColumns (making : Making s row path Fit I) (fit : Fit i applies m)
    {columns : List (FieldModel × String)} (sub : columns ⊆ m.columns) {result : Fields}
    (run : readColumns s row path applies columns fields = .ok result) (h : I i fields) : I i result := by
  induction columns generalizing fields with
  | nil =>
    cases run
    exact h
  | cons c rest ih =>
    obtain ⟨here, later⟩ := List.cons_subset.mp sub
    unfold Assembly.readColumns at run
    split at run
    next own =>
      obtain ⟨v, read, run⟩ := ok_bind.mp run
      exact ih later run (making.value fit here own read h)
    next => exact ih later run h

theorem emptyLists (making : Making s row path Fit I) (fit : Fit i applies m) (chain : List String)
    {relations : List (FieldModel × RelationKind × EntityHead × Members)} (sub : relations ⊆ m.relations)
    (h : I i fields) : I i (emptyLists applies chain relations fields).1 := by
  induction relations generalizing fields with
  | nil => exact h
  | cons r rest ih =>
    obtain ⟨mem, later⟩ := List.cons_subset.mp sub
    unfold Assembly.emptyLists
    dsimp only
    split
    next here =>
      obtain ⟨own, many⟩ := Bool.and_eq_true_iff.mp here
      exact ih later (making.list fit mem own many h)
    next => exact ih later h

/-- By induction on the members that are left, with those they are the last of held fixed. -/
theorem populateEmbedded (making : Making s row path Fit I) (fit : Fit i applies m) {left : Members}
    (sub : left.embeddeds ⊆ m.embeddeds) {made : Fields × List (List String)}
    (run : populateEmbedded s row path left applies chain fields = .ok made) (h : I i fields) :
    I i made.1 := by
  induction left generalizing i applies m chain fields made with
  | nil =>
    cases run
    exact h
  | column f label rest ih => exact ih fit sub run h
  | relation f kind child inner rest _ ih => exact ih fit sub run h
  | embedded f t inner rest inner_ih ih =>
    obtain ⟨mem, later_sub⟩ := List.cons_subset.mp sub
    by_cases own : applies f = true
    case neg =>
      rw [populateEmbedded_of_not own] at run
      exact ih fit later_sub run h
    obtain ⟨_, later, ⟨values, deep, read, below, rfl⟩, beside, rfl⟩ :=
      (populateEmbedded_eq_ok_iff own).mp run
    obtain ⟨j, inner_fit, set⟩ := making.embedded fit mem own
    have read_inside : I j values :=
      making.readColumns inner_fit (List.Subset.refl _) read (making.empty j)
    have whole : I j (Assembly.emptyLists (fun _ => true) (chain ++ [f.name]) inner.relations deep.1).1 :=
      making.emptyLists inner_fit _ (List.Subset.refl _)
        (inner_ih inner_fit (List.Subset.refl _) below read_inside)
    show I i later.1
    refine ih fit later_sub beside ?_
    split
    · exact set whole h
    · exact h

/-- **What every step of making an object keeps holds of the fields that are made.** -/
theorem populated (making : Making s row path Fit I) (fit : Fit i applies m)
    {made : Fields × List (List String)} (h : Populated s row path applies m chain made) :
    I i made.1 := by
  obtain ⟨values, deep, read, below, rfl⟩ := h
  have read_fields : I i values := making.readColumns fit (List.Subset.refl _) read (making.empty i)
  exact making.emptyLists fit chain (List.Subset.refl _)
    (making.populateEmbedded fit (List.Subset.refl _) below read_fields)

end Making

namespace Plan.Members.Typed

variable {s : Schema} {P : FieldModel → Prop} {m : Members}

theorem columns (h : m.Typed s P) : ∀ c ∈ m.columns, P c.1 ∧ c.1.isSingle = true := by
  induction m with
  | nil => exact fun _ hc => absurd hc List.not_mem_nil
  | column f label rest ih =>
    intro c hc
    rcases List.mem_cons.mp hc with rfl | later
    · exact h.1
    · exact ih h.2 c later
  | embedded f t inner rest _ ih => exact ih h.2.2
  | relation f kind child inner rest _ ih => exact ih h.2

theorem relations (h : m.Typed s P) :
    ∀ r ∈ m.relations, P r.1 ∧ r.1.isRelation = true ∧ r.2.1 = relationKind r.1 := by
  induction m with
  | nil => exact fun _ hr => absurd hr List.not_mem_nil
  | column f label rest ih => exact ih h.2
  | embedded f t inner rest _ ih => exact ih h.2.2
  | relation f kind child inner rest _ ih =>
    intro r hr
    rcases List.mem_cons.mp hr with rfl | later
    · exact h.1
    · exact ih h.2 r later

/-- The value objects of typed members are typed. -/
theorem embeddeds (h : m.Typed s P) :
    ∀ v ∈ m.embeddeds, P v.1 ∧ (∃ name, v.1.cls = .embedded name ∧ s.describe name = .ok v.2.1) ∧
      v.2.2.Typed s (· ∈ v.2.1.allFields) := by
  induction m with
  | nil => exact fun _ hv => absurd hv List.not_mem_nil
  | column f label rest ih => exact ih h.2
  | relation f kind child inner rest _ ih => exact ih h.2
  | embedded f u inner rest _ ih =>
    intro v hv
    rcases List.mem_cons.mp hv with rfl | later
    · exact ⟨h.1.1, h.1.2, h.2.1⟩
    · exact ih h.2.2 v later

end Plan.Members.Typed

/-! ## Blank objects -/

/-- Nothing has been attached to a relation: it is missing or, if it leads to many, an empty list. -/
def Clear (f : FieldModel) (slot : Option Slot) : Prop :=
  slot = none ∨ (relationKind f).isMany = true ∧ slot = some (.leaf (.list []))

/-- Nothing has been attached to an object of a type. -/
def Blank (s : Schema) (t : TypeModel) (o : Object) : Prop :=
  ∀ path f, FieldPath s t path f → Clear f (o.at? path)

namespace Blank

variable {s : Schema} {t : TypeModel} {o : Object} {f : FieldModel}

theorem empty (s : Schema) (t : TypeModel) (typeName path : String) :
    Blank s t ⟨typeName, path, .nil⟩ :=
  fun _ _ _ => .inl (Object.at?_empty typeName path _)

/-- Setting a field matters on the paths that begin with it. -/
theorem set (h : Blank s t o) {name : String} {slot : Slot}
    (fits : ∀ rest g, FieldPath s t (name :: rest) g → Clear g ((o.set name slot).at? (name :: rest))) :
    Blank s t (o.set name slot) := by
  intro path g leads
  cases path with
  | nil => exact absurd rfl leads.ne_nil
  | cons first rest =>
    by_cases same : name = first
    · subst same
      exact fits rest g leads
    · have kept : (o.set name slot).get? first = o.get? first := by
        rw [Object.get?_set, if_neg same]
      rw [Object.at?_congr kept]
      exact h _ g leads

/-- Where names tell fields apart, no path begins with a single value. -/
theorem set_value (h : Blank s t o) (named : s.NamesFields) (described : s.Describes t)
    (own : f ∈ t.allFields) (single : f.isSingle = true) (v : Value) :
    Blank s t (o.set f.name (.leaf (.value v))) := by
  obtain ⟨not_relation, not_embedded⟩ := Bool.and_eq_true_iff.mp single
  refine h.set fun rest g leads => ?_
  generalize first : f.name :: rest = path at leads
  cases leads with
  | here mem relation =>
    have same := named.eq_of_name_eq described own mem (List.cons.inj first).1
    rw [same, relation] at not_relation
    cases not_relation
  | inside mem cls =>
    have same := named.eq_of_name_eq described own mem (List.cons.inj first).1
    rw [same, FieldModel.isEmbedded, cls] at not_embedded
    cases not_embedded

/-- A path that begins with a relation ends there. -/
theorem set_list (h : Blank s t o) (named : s.NamesFields) (described : s.Describes t)
    (own : f ∈ t.allFields) (relation : f.isRelation = true)
    (many : (relationKind f).isMany = true) : Blank s t (o.set f.name (.leaf (.list []))) := by
  refine h.set fun rest g leads => ?_
  generalize first : f.name :: rest = path at leads
  cases leads with
  | here mem _ =>
    obtain rfl := named.eq_of_name_eq described own mem (List.cons.inj first).1
    refine .inr ⟨many, ?_⟩
    show (o.set f.name _).get? f.name = _
    rw [Object.get?_set, if_pos rfl]
  | inside mem cls =>
    have same := named.eq_of_name_eq described own mem (List.cons.inj first).1
    rw [same, not_relation_of_embedded cls] at relation
    cases relation

/-- A path that begins with a value object leads on inside it. -/
theorem set_embedded (h : Blank s t o) (named : s.NamesFields) (described : s.Describes t)
    (own : f ∈ t.allFields) {name : String} {u : TypeModel} (cls : f.cls = .embedded name)
    (describes : s.describe name = .ok u) {inner : Object} (blank : Blank s u inner) :
    Blank s t (o.set f.name (.embedded inner)) := by
  refine h.set fun rest g leads => ?_
  generalize first : f.name :: rest = path at leads
  cases leads with
  | here mem relation =>
    have same := named.eq_of_name_eq described own mem (List.cons.inj first).1
    rw [← same, not_relation_of_embedded cls] at relation
    cases relation
  | inside mem cls' describes' leads =>
    obtain rfl := named.eq_of_name_eq described own mem (List.cons.inj first).1
    rw [cls] at cls'
    cases cls'
    rw [describes] at describes'
    cases describes'
    rw [Object.at?_cons _ leads.ne_nil, Object.embedded?_set, if_pos rfl]
    exact blank _ g leads

end Blank

/-- A list that is there is kept while others are set. -/
theorem get?_emptyLists_of_empty {applies : FieldModel → Bool} {chain : List String} {name : String}
    {relations : List (FieldModel × RelationKind × EntityHead × Members)} {fields : Fields}
    (h : fields.get? name = some (.leaf (.list []))) :
    (emptyLists applies chain relations fields).1.get? name = some (.leaf (.list [])) := by
  induction relations generalizing fields with
  | nil => exact h
  | cons r rest ih =>
    unfold emptyLists
    split
    · refine ih ?_
      rw [Fields.get?_set]
      split
      · rfl
      · exact h
    · exact ih h

/-- Every relation that applies and leads to many gets a list. -/
theorem get?_emptyLists {applies : FieldModel → Bool} {chain : List String}
    {relations : List (FieldModel × RelationKind × EntityHead × Members)}
    {r : FieldModel × RelationKind × EntityHead × Members} (hr : r ∈ relations)
    (here : applies r.1 = true) (many : r.2.1.isMany = true) (fields : Fields) :
    (emptyLists applies chain relations fields).1.get? r.1.name = some (.leaf (.list [])) := by
  induction relations generalizing fields with
  | nil => cases hr
  | cons first rest ih =>
    unfold emptyLists
    rcases List.mem_cons.mp hr with rfl | later
    · rw [if_pos (Bool.and_eq_true_iff.mpr ⟨here, many⟩)]
      refine get?_emptyLists_of_empty ?_
      rw [Fields.get?_set, if_pos rfl]
    · split
      · exact ih later _
      · exact ih later _

/-- Nothing is attached while an object is made. -/
theorem making_blank {s : Schema} (named : s.NamesFields) (row : Row) (at_ : String) :
    Making s row at_
      (fun t applies m => s.Describes t ∧ m.Typed s fun f => applies f = true → f ∈ t.allFields)
      fun t fields => ∀ typeName path, Blank s t ⟨typeName, path, fields⟩ := by
  constructor
  case empty => exact fun t typeName path => Blank.empty s t typeName path
  case value =>
    intro t applies m c v fields fit hc own _ blank typeName path
    obtain ⟨mem, single⟩ := fit.2.columns c hc
    exact (blank typeName path).set_value named fit.1 (mem own) single v
  case list =>
    intro t applies m r fields fit hr own many blank typeName path
    obtain ⟨mem, relation, kind⟩ := fit.2.relations r hr
    exact (blank typeName path).set_list named fit.1 (mem own) relation (kind ▸ many)
  case embedded =>
    intro t applies m v fit hv own
    obtain ⟨mem, ⟨name, cls, describes⟩, inside⟩ := fit.2.embeddeds v hv
    refine ⟨v.2.1, ⟨⟨name, describes⟩, inside.imp fun f mem _ => mem⟩, ?_⟩
    intro inner fields inner_blank blank typeName path
    exact (blank typeName path).set_embedded named fit.1 (mem own) cls describes (inner_blank _ _)

/-- **Nothing is attached to an object that has just been populated.** -/
theorem blank_of_populate {s : Schema} (named : s.NamesFields) {row : Row} {at_ : String}
    {type : TypeModel} (described : s.Describes type) {m : Members}
    (typed : m.Typed s fun f => type.isA f.owner = true → f ∈ type.allFields)
    {made : Fields × List (List String)} (h : populate s row at_ type m = .ok made)
    (typeName path : String) : Blank s type ⟨typeName, path, made.1⟩ :=
  (making_blank named row at_).populated ⟨described, typed⟩ (populate_eq_ok_iff.mp h) typeName path

/-- A relation lies in a value object or is one of the members. -/
theorem Plan.Members.nested_or_mem_relations {m : Members} {x : Site} (hx : x ∈ m.sites []) :
    x.nested = true ∨ x.chain = [] ∧ (x.field, x.kind, x.child, x.inner) ∈ m.relations := by
  induction m with
  | nil => cases hx
  | column f label rest ih => exact ih hx
  | embedded f t inner rest _ ih =>
    rcases List.mem_append.mp hx with inside | beside
    · rw [sites_eq_map] at inside
      obtain ⟨y, -, rfl⟩ := List.mem_map.mp inside
      exact .inl rfl
    · exact ih beside
  | relation f kind child inner rest _ ih =>
    rcases List.mem_cons.mp hx with rfl | beside
    · exact .inr ⟨rfl, List.mem_cons_self⟩
    · exact (ih beside).imp_right (And.imp_right (List.mem_cons_of_mem _))

/-- A relation of one's own that leads to many has a list from the beginning. -/
theorem list_of_populate {s : Schema} {row : Row} {at_ : String} {type : TypeModel} {m : Members}
    {made : Fields × List (List String)} (h : populate s row at_ type m = .ok made) {x : Site}
    (hx : x ∈ m.sites []) (applies : x.applies type = true) (many : x.kind.isMany = true) :
    x.nested = true ∨ ∀ typeName path,
      (Object.mk typeName path made.1).at? x.path = some (.leaf (.list [])) := by
  refine (Members.nested_or_mem_relations hx).imp_right fun ⟨direct, mem⟩ typeName path => ?_
  obtain ⟨values, read, h⟩ := ok_bind.mp h
  obtain ⟨deep, below, h⟩ := ok_bind.mp h
  cases h
  unfold Site.applies Site.gate at applies
  rw [direct] at applies
  rw [Site.path, direct]
  exact get?_emptyLists (r := (x.field, x.kind, x.child, x.inner)) mem applies many deep.1

/-! ## Creating -/

/-- What an instance is made of when it is new: nothing is attached to it. -/
structure Created (e : Entity) (row : Row) (key : Key) (i : Instance) : Prop where
  entity : i.entity = e.head.index
  key : i.key = key
  type : i.type = typeOf e.head row
  typeName : i.object.typeName = i.type.name
  path : i.object.path = e.head.path
  empty : ∀ x ∈ e.sites, x.applies i.type = true →
    Holds x.kind x.nested [] (i.object.at? x.path)

/-- A relation that nothing has been attached to holds no objects. -/
theorem Clear.holds {kind : RelationKind} {nested : Bool} {f : FieldModel} {slot : Option Slot}
    (clear : Clear f slot) (same : kind = relationKind f)
    (list : kind.isMany = true → nested = true ∨ slot = some (.leaf (.list []))) :
    Holds kind nested [] slot := by
  have many (leads : kind.isMany = true) : slot = some (.leaf (.list [])) ∨
      nested = true ∧ ([] : List ObjectId) = [] ∧ slot = none := by
    rcases clear with none | ⟨-, empty⟩
    · exact (list leads).symm.imp_right fun inside => ⟨inside, rfl, none⟩
    · exact .inl empty
  cases kind with
  | toOne =>
    rcases clear with none | ⟨leads, -⟩
    · exact none
    · rw [← same] at leads
      cases leads
  | toManyDirect => exact many rfl
  | toManyLinked => exact many rfl

/-- **A new instance has its type from the row, and nothing is attached to it.** -/
theorem created_of_create {s : Schema} (named : s.NamesFields) {e : Entity} (walked : e.Walked s)
    {row : Row} {key : Key} {i : Instance} (h : create s row e.head e.members key = .ok i) :
    Created e row key i := by
  obtain ⟨made, populated, h⟩ := ok_bind.mp h
  cases h
  have described := walked.describes_typeOf row
  have blank := blank_of_populate named described (walked.typed described) populated
    (typeOf e.head row).name e.head.path
  refine ⟨rfl, rfl, rfl, rfl, rfl, fun x hx applies => ?_⟩
  refine (blank x.path x.field (walked.fieldPath described hx applies)).holds (walked.kind_eq hx) ?_
  exact fun many => (list_of_populate populated hx applies many).imp_right fun list => list _ _

/-! ## Success -/

/-- Whether the values of members that apply can be read from a row. -/
def Plan.Members.readable (s : Schema) (row : Row) (path : String) :
    Members → (FieldModel → Bool) → Bool
  | .nil, _ => true
  | .column f label rest, applies =>
    (!applies f || (Assembly.readValue s row path f label).isOk) && rest.readable s row path applies
  | .embedded f _ inner rest, applies =>
    (!applies f || inner.readable s row path fun _ => true) && rest.readable s row path applies
  | .relation _ _ _ _ rest, applies => rest.readable s row path applies

section

variable {s : Schema} {row : Row} {path : String} {applies : FieldModel → Bool} {m : Members}

theorem exists_of_isOk {ε α : Type} {x : Except ε α} (h : x.isOk = true) : ∃ a, x = .ok a := by
  cases x with
  | error e => cases h
  | ok a => exact ⟨a, rfl⟩

theorem implies_of_not_or {a b : Bool} (h : (!a || b) = true) (ha : a = true) : b = true := by
  rw [ha] at h
  exact h

/-- The single values of readable members are read. -/
theorem readColumns_ok (h : m.readable s row path applies = true) (fields : Fields) :
    ∃ values, readColumns s row path applies m.columns fields = .ok values := by
  induction m generalizing fields with
  | nil => exact ⟨fields, rfl⟩
  | column f label rest ih =>
    obtain ⟨here, later⟩ := Bool.and_eq_true_iff.mp h
    show ∃ values, readColumns s row path applies ((f, label) :: rest.columns) fields = .ok values
    unfold readColumns
    split
    next applies_f =>
      obtain ⟨value, read⟩ := exists_of_isOk (implies_of_not_or here applies_f)
      rw [read]
      exact ih later _
    next => exact ih later fields
  | embedded f t inner rest _ ih => exact ih (Bool.and_eq_true_iff.mp h).2 fields
  | relation f kind child inner rest _ ih => exact ih h fields

/-- The value objects of readable members are populated. -/
theorem populateEmbedded_ok (h : m.readable s row path applies = true) (chain : List String)
    (fields : Fields) :
    ∃ made, populateEmbedded s row path m applies chain fields = .ok made := by
  induction m generalizing applies chain fields with
  | nil => exact ⟨_, rfl⟩
  | column f label rest ih => exact ih (Bool.and_eq_true_iff.mp h).2 chain fields
  | relation f kind child inner rest _ ih => exact ih h chain fields
  | embedded f t inner rest inner_ih ih =>
    obtain ⟨inside, later⟩ := Bool.and_eq_true_iff.mp h
    unfold populateEmbedded
    split
    next applies_f =>
      have readable := implies_of_not_or inside applies_f
      obtain ⟨values, read⟩ := readColumns_ok readable .nil
      obtain ⟨deep, below⟩ := inner_ih readable (chain ++ [f.name]) values
      obtain ⟨more, beside⟩ := ih later chain _
      exact ⟨_, ok_bind.mpr ⟨values, read, ok_bind.mpr ⟨deep, below, ok_bind.mpr ⟨more, beside, rfl⟩⟩⟩⟩
    next => exact ih later chain fields

end

/-- **An instance is made of every row whose values can be read.** -/
theorem create_ok {s : Schema} {row : Row} {e : Entity} (key : Key)
    (h : e.members.readable s row e.head.path (fun f => (typeOf e.head row).isA f.owner) = true) :
    ∃ i, create s row e.head e.members key = .ok i := by
  obtain ⟨values, read⟩ := readColumns_ok h .nil
  obtain ⟨deep, below⟩ := populateEmbedded_ok h [] values
  exact ⟨_, ok_bind.mpr ⟨_, ok_bind.mpr ⟨values, read, ok_bind.mpr ⟨deep, below, rfl⟩⟩, rfl⟩⟩

/-- What can be read whatever applies can be read if less applies. -/
theorem Plan.Members.readable_of_all {s : Schema} {row : Row} {path : String} {m : Members}
    (h : m.readable s row path (fun _ => true) = true) (applies : FieldModel → Bool) :
    m.readable s row path applies = true := by
  induction m with
  | nil => rfl
  | column f label rest ih =>
    obtain ⟨here, later⟩ := Bool.and_eq_true_iff.mp h
    refine Bool.and_eq_true_iff.mpr ⟨?_, ih later⟩
    rw [implies_of_not_or here rfl, Bool.or_true]
  | embedded f t inner rest _ ih =>
    obtain ⟨here, later⟩ := Bool.and_eq_true_iff.mp h
    refine Bool.and_eq_true_iff.mpr ⟨?_, ih later⟩
    rw [implies_of_not_or here rfl, Bool.or_true]
  | relation f kind child inner rest _ ih => exact ih h

end Orm
