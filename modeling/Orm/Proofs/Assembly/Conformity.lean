import Orm.Proofs.Value.Typing
import Orm.Proofs.Assembly.Repetition
import Orm.Proofs.Assembly.Slots

/-!
# `Proofs.Assembly.Conformity` — objects conform to their types

Values are read from rows, children are attached and collections are settled, each into a field that is
found by its name. All of them keep to the declarations: whatever the rows are, a field of every object,
and of every value object in it, holds what it is declared for.

Fields are addressed by name, so this needs the names in each type that the plan makes to be distinct.

## Contents
- **Declarations.** `Leaf.Fits`, `Fields.Conforms`, `Slot.Suits`, `Conforms.set`, `Conforms.get?`.
- **New objects.** `making_conforms`, `conforms_of_populate`.
- **Changes.** `Through`, `conforms_updateAt`, `Conforms.attach`, `conforms_settle`.
- **Plans.** `Entity.Makes`, `Plan.NamesFields`.
- **Rows.** `Assembly.Conforms`, `Meets.conforms`, `Conforms.connect`, `Fitting`, `Links.conforms`.
- **Main result.** `Plan.materialize_conforms`.
-/

namespace Orm

open Schema Plan Assembly

/-! ## Declarations -/

/-- The contents that a field is declared for. -/
inductive Leaf.Fits (s : Schema) (f : FieldModel) : Leaf → Prop where
  | value {v : Value} (takes : f.Takes s v) : Fits s f (.value v)
  | ref {id : ObjectId} (relation : f.isRelation = true) (one : f.cardinality.isMany = false) :
      Fits s f (.ref id)
  | list {ids : List ObjectId} (relation : f.isRelation = true)
      (many : f.cardinality.isMany = true) : Fits s f (.list ids)
  | array {ids : List ObjectId} (relation : f.isRelation = true)
      (many : f.cardinality.isMany = true) : Fits s f (.array ids)

/-- Fields that are declared or inherited by a type, each with what it is declared for; those of a value
object are in turn fields of the type that it is of. -/
inductive Fields.Conforms (s : Schema) : TypeModel → Fields → Prop where
  | nil {t : TypeModel} : Conforms s t .nil
  | leaf {t : TypeModel} {f : FieldModel} {content : Leaf} {rest : Fields} (own : f ∈ t.allFields)
      (fits : content.Fits s f) (others : Conforms s t rest) :
      Conforms s t (.leaf f.name content rest)
  | embedded {t u : TypeModel} {f : FieldModel} {name path : String} {inner rest : Fields}
      (own : f ∈ t.allFields) (cls : f.cls = .embedded name) (describes : s.describe name = .ok u)
      (inside : Conforms s u inner) (others : Conforms s t rest) :
      Conforms s t (.embedded f.name u.name path inner rest)

/-- What a type declares a field of a name for. -/
inductive Slot.Suits (s : Schema) (t : TypeModel) : String → Slot → Prop where
  | leaf {f : FieldModel} {content : Leaf} (own : f ∈ t.allFields) (fits : content.Fits s f) :
      Suits s t f.name (.leaf content)
  | embedded {f : FieldModel} {name : String} {u : TypeModel} {o : Object} (own : f ∈ t.allFields)
      (cls : f.cls = .embedded name) (describes : s.describe name = .ok u)
      (typeName : o.typeName = u.name) (inside : o.fields.Conforms s u) :
      Suits s t f.name (.embedded o)

section

variable {s : Schema} {t u : TypeModel} {fields : Fields} {name : String} {slot : Slot} {f : FieldModel}

namespace Fields.Conforms

theorem cons (suits : slot.Suits s t name) (others : fields.Conforms s t) :
    (Fields.cons name slot fields).Conforms s t := by
  cases suits with
  | leaf own fits => exact .leaf own fits others
  | @embedded f _ u o own cls describes typeName inside =>
    show Fields.Conforms s t (.embedded f.name o.typeName o.path o.fields fields)
    rw [typeName]
    exact .embedded own cls describes inside others

/-- A field that is set to what it is declared for leaves the others as they were. -/
theorem set (h : fields.Conforms s t) (suits : slot.Suits s t name) :
    (fields.set name slot).Conforms s t := by
  induction h with
  | nil => exact cons suits .nil
  | leaf own fits others ih =>
    unfold Fields.set
    split
    · exact cons suits others
    · exact .leaf own fits (ih suits)
  | embedded own cls describes inside others _ ih =>
    unfold Fields.set
    split
    · exact cons suits others
    · exact .embedded own cls describes inside (ih suits)

theorem get? (h : fields.Conforms s t) (found : fields.get? name = some slot) :
    slot.Suits s t name := by
  induction h with
  | nil => cases found
  | leaf own fits others ih =>
    unfold Fields.get? at found
    split at found
    next here =>
      cases found
      subst here
      exact .leaf own fits
    next => exact ih found
  | embedded own cls describes inside others _ ih =>
    unfold Fields.get? at found
    split at found
    next here =>
      cases found
      subst here
      exact .embedded own cls describes rfl inside
    next => exact ih found

theorem embedded? {o inner : Object} (h : o.fields.Conforms s t)
    (found : o.embedded? name = some inner) : (Slot.embedded inner).Suits s t name := by
  unfold Object.embedded? at found
  split at found
  next slot content =>
    cases found
    exact h.get? content
  next => cases found

end Fields.Conforms

/-! ## New objects -/

theorem takes_of_readValue (single : f.isSingle = true) {row : Row} {path label : String} {v : Value}
    (h : Assembly.readValue s row path f label = .ok v) : f.Takes s v := by
  obtain ⟨constants, known, h⟩ := ok_bind.mp h
  split at h
  next value fitted =>
    cases h
    exact FieldModel.takes_of_coerce single known fitted
  next => cases h

/-- Every step of making an object sets a field to what it is declared for. -/
theorem making_conforms (row : Row) (path : String) :
    Making s row path (fun t applies m => m.Typed s fun f => applies f = true → f ∈ t.allFields)
      fun t fields => fields.Conforms s t := by
  constructor
  case empty => exact fun t => .nil
  case value =>
    intro t applies m c v fields typed hc own read conforms
    obtain ⟨mem, single⟩ := typed.columns c hc
    exact conforms.set (.leaf (mem own) (.value (takes_of_readValue single read)))
  case list =>
    intro t applies m r fields typed hr own many conforms
    obtain ⟨mem, relation, kind⟩ := typed.relations r hr
    rw [kind, isMany_relationKind] at many
    exact conforms.set (.leaf (mem own) (.list relation many))
  case embedded =>
    intro t applies m v typed hv own
    obtain ⟨mem, ⟨name, cls, describes⟩, inside⟩ := typed.embeddeds v hv
    refine ⟨v.2.1, inside.imp fun f mem _ => mem, fun {inner fields} whole conforms => ?_⟩
    exact conforms.set (.embedded (mem own) cls describes rfl whole)

/-- **A new object conforms to its type.** -/
theorem conforms_of_populate {row : Row} {path : String} {m : Members}
    (typed : m.Typed s fun f => t.isA f.owner = true → f ∈ t.allFields)
    {made : Fields × List (List String)} (h : populate s row path t m = .ok made) :
    made.1.Conforms s t :=
  (making_conforms row path).populated typed (populate_eq_ok_iff.mp h)

/-! ## Changes -/

/-- No two fields of a type, declared or inherited, have one name. -/
def Schema.TypeModel.Distinct (t : TypeModel) : Prop :=
  (t.allFields.map (·.name)).Nodup

/-- A chain of fields leads from objects of a type through value objects to those of another. Each field
is the only one of its name. -/
inductive Through (s : Schema) : TypeModel → List (String × String) → TypeModel → Prop where
  | here {t : TypeModel} : Through s t [] t
  | inside {t u v : TypeModel} {f : FieldModel} {name : String} {chain : List (String × String)}
      (distinct : t.Distinct) (own : f ∈ t.allFields) (cls : f.cls = .embedded name)
      (describes : s.describe name = .ok u) (later : Through s u chain v) :
      Through s t ((f.name, u.name) :: chain) v

/-- A chain leads on through one more value object. -/
theorem Through.snoc {v : TypeModel} {chain : List (String × String)} (h : Through s t chain u)
    (distinct : u.Distinct) (own : f ∈ u.allFields) (cls : f.cls = .embedded name)
    (describes : s.describe name = .ok v) : Through s t (chain ++ [(f.name, v.name)]) v := by
  induction h with
  | here => exact .inside distinct own cls describes .here
  | inside distinct' own' cls' describes' _ ih =>
    exact .inside distinct' own' cls' describes' (ih distinct own)

/-- The value object that a chain leads through next conforms to its type, where it is there. -/
theorem conforms_embedded? {o inner : Object} (h : o.fields.Conforms s t)
    (distinct : t.Distinct) (own : f ∈ t.allFields) (cls : f.cls = .embedded name)
    (describes : s.describe name = .ok u) (found : o.embedded? f.name = some inner) :
    inner.typeName = u.name ∧ inner.fields.Conforms s u := by
  have suits := h.embedded? found
  generalize same : f.name = field at suits
  cases suits with
  | embedded own' cls' describes' typeName inside =>
    obtain rfl := List.inj_on_of_nodup_map distinct own own' same
    cases cls.symm.trans cls'
    cases describes.symm.trans describes'
    exact ⟨typeName, inside⟩

/-- **A change at the end of a chain of value objects keeps what it keeps there**, also where value
objects are made on the way. -/
theorem conforms_updateAt {chain : List (String × String)} (through : Through s t chain u)
    {change : Fields → Fields}
    (keeps : ∀ fields, fields.Conforms s u → (change fields).Conforms s u) {o : Object}
    (h : o.fields.Conforms s t) : (o.updateAt change chain).fields.Conforms s t := by
  induction through generalizing o with
  | here => exact keeps o.fields h
  | @inside t u' _ f _ chain distinct own cls describes later ih =>
    have inner : ((o.embedded? f.name).getD (.empty u'.name o.path)).typeName = u'.name ∧
        ((o.embedded? f.name).getD (.empty u'.name o.path)).fields.Conforms s u' := by
      cases found : o.embedded? f.name with
      | none => exact ⟨rfl, .nil⟩
      | some inner => exact conforms_embedded? h distinct own cls describes found
    exact h.set (.embedded own cls describes ((Object.typeName_updateAt _ _ _).trans inner.1)
      (ih keeps inner.2))

/-- A child is attached as the relation is declared. -/
theorem Fields.Conforms.attach (h : fields.Conforms s t) (own : f ∈ t.allFields)
    (relation : f.isRelation = true) (child : ObjectId) :
    (Assembly.attach f.name (relationKind f) child fields).Conforms s t := by
  have many : relationKind f ≠ .toOne → f.cardinality.isMany = true := by
    intro kind
    rw [← isMany_relationKind]
    cases same : relationKind f with
    | toOne => exact absurd same kind
    | toManyDirect => rfl
    | toManyLinked => rfl
  unfold Assembly.attach
  split
  next kind =>
    have one : f.cardinality.isMany = false := by
      rw [← isMany_relationKind, kind]
      rfl
    split
    · exact h
    · exact h.set (.leaf own (.ref relation one))
  next kind =>
    split
    · exact h.set (.leaf own (.list relation (many kind)))
    · exact h.set (.leaf own (.list relation (many kind)))

/-- A collection is settled as the relation is declared. -/
theorem Slot.Suits.settled (h : slot.Suits s t name) : slot.settled.Suits s t name := by
  cases h with
  | leaf own fits =>
    cases fits with
    | list relation many => exact .leaf own (.array relation many)
    | value takes => exact .leaf own (.value takes)
    | ref relation one => exact .leaf own (.ref relation one)
    | array relation many => exact .leaf own (.array relation many)
  | embedded own cls describes typeName inside =>
    exact .embedded own cls describes typeName inside

/-- **Settling keeps to the declarations**, wherever the chain leads. -/
theorem conforms_settle (chain : List String) {o : Object} (h : o.fields.Conforms s t) :
    (o.settle chain).fields.Conforms s t := by
  induction chain, o using Object.settle.induct generalizing t with
  | case1 o => exact h
  | case2 o last slot found =>
    simp only [Object.settle, found]
    exact h.set (h.get? found).settled
  | case3 o last none =>
    simp only [Object.settle, none]
    exact h
  | case4 o field next chain inner found ih =>
    simp only [Object.settle, found]
    refine h.set ?_
    cases h.embedded? found with
    | embedded own cls describes typeName inside =>
      exact .embedded own cls describes ((Object.typeName_settle _ _).trans typeName) (ih inside)
  | case5 o field next chain none =>
    simp only [Object.settle, none]
    exact h

end

/-! ## Plans -/

/-- The types of the value objects in an object. -/
def Plan.Members.valueTypes : Members → List TypeModel
  | .nil => []
  | .column _ _ rest => rest.valueTypes
  | .embedded _ t inner rest => t :: (inner.valueTypes ++ rest.valueTypes)
  | .relation _ _ _ _ rest => rest.valueTypes

/-- An entity makes objects of its declared type and of those below it, and value objects in them. -/
def Plan.Entity.Makes (s : Schema) (e : Entity) (t : TypeModel) : Prop :=
  t ∈ e.members.valueTypes ∨
    ∃ below, s.descendants e.head.declared = .ok below ∧ t ∈ e.head.declared :: below

/-- No type that a plan makes objects or value objects of has two fields of one name, declared or
inherited. -/
def Plan.NamesFields (s : Schema) (p : Plan) : Prop :=
  ∀ e ∈ p.entities, ∀ t, e.Makes s t → t.Distinct

section

variable {s : Schema} {p : Plan} {name : String}

/-- The types of value objects are described. -/
theorem Plan.Members.Typed.describes_valueTypes {P : FieldModel → Prop} {m : Members}
    (h : m.Typed s P) : ∀ t ∈ m.valueTypes, s.Describes t := by
  induction m generalizing P with
  | nil => exact fun _ ht => absurd ht List.not_mem_nil
  | column f label rest ih => exact ih h.2
  | relation f kind child inner rest _ ih => exact ih h.2
  | embedded f u inner rest inner_ih ih =>
    obtain ⟨⟨-, name, -, describes⟩, inside, others⟩ := h
    intro t ht
    rcases List.mem_cons.mp ht with rfl | ht
    · exact ⟨name, describes⟩
    rcases List.mem_append.mp ht with below | beside
    · exact inner_ih inside t below
    · exact ih others t beside

theorem Plan.Entity.Walked.describes_declared {e : Entity} (walked : e.Walked s) :
    s.Describes e.head.declared := by
  obtain @⟨_, _, _, _, _, _, _, _, _, _, _, describes, lays, -⟩ := walked
  obtain ⟨sound, declared⟩ := sound_of_layout ⟨_, describes⟩ lays
  exact sound.declared

/-- The types that an entity of a plan makes objects of are described. -/
theorem Plan.Entity.Walked.describes {e : Entity} (walked : e.Walked s) {t : TypeModel}
    (makes : e.Makes s t) : s.Describes t := by
  have declared := walked.describes_declared
  rcases makes with value | ⟨below, found, mem⟩
  · exact (walked.typed declared).describes_valueTypes t value
  · rcases List.mem_cons.mp mem with rfl | lower
    · exact declared
    · exact describes_of_mem_descendants found lower

/-- Where no type of the schema has two fields of one name, none of a plan has. -/
theorem Schema.NamesFields.plan (named : s.NamesFields) (built : Plan.build s name = .ok p) :
    p.NamesFields s := by
  obtain ⟨root, -, wired⟩ := wired_of_build built
  intro e he t makes
  obtain ⟨name, described⟩ := (wired.walked e he).describes makes
  exact named name t described

end

/-! ## Rows -/

/-- An object conforms to the type that the row told when it was made. -/
structure Instance.Conforms (s : Schema) (i : Instance) : Prop where
  typeName : i.object.typeName = i.type.name
  described : s.Describes i.type
  distinct : i.type.Distinct
  fields : i.object.fields.Conforms s i.type

namespace Assembly

/-- All objects conform to their types. -/
def Conforms (s : Schema) (a : Assembly) : Prop :=
  ∀ (id : ObjectId) (i : Instance), a.instances[id]? = some i → i.Conforms s

/-- There is an instance of a type at a position. -/
def Stands (a : Assembly) (id : ObjectId) (type : TypeModel) : Prop :=
  ∃ i, a.instances[id]? = some i ∧ i.type = type

variable {s : Schema} {es : List Entity} {e : Entity} {root : Entity} {row : Row}
  {m members : Members} {part : Part} {o : Owner} {f : FieldModel} {key : Key} {id : ObjectId}
  {type u : TypeModel} {a a' : Assembly}

theorem Stands.keep (h : a.Stands id type) (keeps : Keeps a a') : a'.Stands id type := by
  obtain ⟨i, at_id, rfl⟩ := h
  obtain ⟨j, at_j, -, -, same⟩ := keeps.instance_of at_id
  exact ⟨j, at_j, same⟩

theorem Meets.conforms (h : Meets s row e.head e.members key a id type a') (walked : e.Walked s)
    (named : ∀ t, e.Makes s t → t.Distinct) (conforms : a.Conforms s) :
    a'.Conforms s := by
  cases h with
  | known => exact conforms
  | @made i absent created =>
    intro id j found
    have place : (a.instances ++ [i])[id]? = some j := found
    rw [List.getElem?_append] at place
    split at place
    · exact conforms id j place
    obtain rfl := List.mem_singleton.mp (List.mem_of_getElem? place)
    obtain ⟨-, -, told⟩ := eq_of_create created
    obtain ⟨below, descend, mem⟩ := walked.typeOf_mem
    have makes : e.Makes s (typeOf e.head row) := .inr ⟨below, descend, mem row⟩
    obtain ⟨made, populated, result⟩ := ok_bind.mp created
    cases result
    have described := walked.describes_typeOf row
    exact ⟨rfl, described, named _ makes, conforms_of_populate (walked.typed described) populated⟩

/-- **A child is linked as the relation of its owner is declared.** -/
theorem Conforms.connect (conforms : a.Conforms s) (stands : a.Stands o.id o.type)
    (through : Through s o.type o.chain u) (own : f ∈ u.allFields) (relation : f.isRelation = true)
    (entity child : Nat) : (a.connect o f (relationKind f) entity child).Conforms s := by
  by_cases present : (⟨o.id, entity, child⟩ : Link) ∈ a.links
  · rw [connect_of_mem present]
    exact conforms
  rw [connect_of_not_mem present]
  intro id i found
  unfold modify at found
  rw [List.getElem?_modify] at found
  obtain ⟨j, at_j, rfl⟩ := Option.map_eq_some_iff.mp found
  have before := conforms id j at_j
  by_cases here : o.id = id
  · subst here
    obtain ⟨i, at_i, same⟩ := stands
    cases at_i.symm.trans at_j
    rw [if_pos rfl]
    refine ⟨(Object.typeName_updateAt _ _ _).trans before.typeName, before.described, before.distinct, ?_⟩
    refine conforms_updateAt (same ▸ through) (fun fields h => ?_) before.fields
    exact h.attach own relation child
  · rw [if_neg here]
    exact before

/-- The members behind an idle one are typed as it is. -/
theorem Idle.typed {P : FieldModel → Prop} {rest : Members} (idle : Idle row o part m rest)
    (typed : m.Typed s P) : rest.Typed s P := by
  cases idle with
  | column => exact typed.2
  | valueLater => exact typed.2.2
  | foreignValue => exact typed.2.2
  | relationBefore => exact typed.2
  | foreignRelation => exact typed.2
  | nowhere => exact typed.2

theorem Idle.valueTypes_subset {rest : Members} (idle : Idle row o part m rest) :
    rest.valueTypes ⊆ m.valueTypes := by
  cases idle with
  | column => exact List.Subset.refl _
  | valueLater => exact List.subset_cons_of_subset _ (List.subset_append_right _ _)
  | foreignValue => exact List.subset_cons_of_subset _ (List.subset_append_right _ _)
  | relationBefore => exact List.Subset.refl _
  | foreignRelation => exact List.Subset.refl _
  | nowhere => exact List.Subset.refl _

/-- What is known of members when they are linked to an owner: their entities are of the plan, and they
are fields of the type that the chain of the owner leads to. -/
structure Fitting (s : Schema) (es : List Entity) (m : Members) (o : Owner) (u : TypeModel) : Prop where
  below : ∀ e ∈ m.entities, (⟨e.1, e.2⟩ : Entity) ∈ es
  values : ∀ t ∈ m.valueTypes, t.Distinct
  through : Through s o.type o.chain u
  distinct : u.Distinct
  typed : m.Typed s fun f => o.applies f = true → f ∈ u.allFields

namespace Fitting

variable {t : TypeModel} {kind : RelationKind} {child : EntityHead} {inner rest : Members}

theorem behind (h : Fitting s es m o u) (idle : Idle row o part m rest) : Fitting s es rest o u :=
  { h with
    below := fun e he => h.below e (idle.entities_subset he)
    values := fun t ht => h.values t (idle.valueTypes_subset ht)
    typed := idle.typed h.typed }

/-- The members of a value object belong to its owner by one more step. -/
theorem inside (h : Fitting s es (.embedded f t inner rest) o u) (applies : o.applies f = true) :
    Fitting s es inner (o.inside f.name t.name) t := by
  obtain ⟨⟨own, name, cls, describes⟩, typed, -⟩ := h.typed
  constructor
  case below => exact fun e he => h.below e (List.mem_append_left _ he)
  case values => exact fun t ht => h.values t (List.mem_cons_of_mem _ (List.mem_append_left _ ht))
  case through => exact h.through.snoc h.distinct (own applies) cls describes
  case distinct => exact h.values t List.mem_cons_self
  case typed => exact typed.imp fun g mem (_ : Owner.applies _ g = true) => mem

theorem beside_embedded (h : Fitting s es (.embedded f t inner rest) o u) : Fitting s es rest o u :=
  { h with
    below := fun e he => h.below e (List.mem_append_right _ he)
    values := fun t ht => h.values t (List.mem_cons_of_mem _ (List.mem_append_right _ ht))
    typed := h.typed.2.2 }

theorem beside_relation (h : Fitting s es (.relation f kind child inner rest) o u) :
    Fitting s es rest o u :=
  { h with
    below := fun e he => h.below e (List.mem_cons_of_mem _ (List.mem_append_right _ he))
    typed := h.typed.2 }

/-- The members of an entity are linked to its instances. -/
theorem entity (walked : e.Walked s) (named : ∀ t, e.Makes s t → t.Distinct)
    (below : ∀ e' ∈ e.members.entities, (⟨e'.1, e'.2⟩ : Entity) ∈ es) (conforms : a.Conforms s)
    (stands : a.Stands id type) : Fitting s es e.members ⟨id, type, []⟩ type := by
  obtain ⟨i, at_id, rfl⟩ := stands
  have here := conforms id i at_id
  constructor
  case below => exact below
  case values => exact fun t ht => named t (.inl ht)
  case through => exact .here
  case distinct => exact here.distinct
  case typed => exact walked.typed here.described

end Fitting

/-- **Linking keeps to the declarations.** -/
theorem Links.conforms (walked : ∀ e ∈ es, e.Walked s)
    (named : ∀ e ∈ es, ∀ t, e.Makes s t → t.Distinct) (h : Links s row m part o a a')
    (fitting : Fitting s es m o u) (stands : a.Stands o.id o.type) (conforms : a.Conforms s) :
    a'.Conforms s := by
  -- The owner stands where it stood while others are added, so it still has its type when its child is
  -- attached to it.
  induction h generalizing u with
  | done => exact conforms
  | skip idle _ ih => exact ih (fitting.behind idle) stands conforms
  | embedded applies relations embedded later ih₁ ih₂ ih₃ =>
    have inside := fitting.inside applies
    have stands₁ := stands.keep relations.keeps
    have conforms₂ := ih₂ inside stands₁ (ih₁ inside stands conforms)
    exact ih₃ fitting.beside_embedded (stands₁.keep embedded.keeps) conforms₂
  | @relation f kind child inner rest o key id type a a₁ a₂ a₃ _ applies _ met relations embedded later
      ih₁ ih₂ ih₃ =>
    obtain ⟨own, relation, rfl⟩ := fitting.typed.1
    have mem : (⟨child, inner⟩ : Entity) ∈ es := fitting.below (child, inner) List.mem_cons_self
    have conforms₁ : a₁.Conforms s :=
      Meets.conforms (e := ⟨child, inner⟩) met (walked _ mem) (named _ mem) conforms
    have child₁ : a₁.Stands id type := met.stands.2
    have inside : Fitting s es inner ⟨id, type, []⟩ type :=
      Fitting.entity (walked _ mem) (named _ mem)
        (fun e he => fitting.below e (List.mem_cons_of_mem _ (List.mem_append_left _ he)))
        conforms₁ child₁
    have conforms₃ := ih₂ inside (child₁.keep relations.keeps) (ih₁ inside child₁ conforms₁)
    have stands₃ := stands.keep (met.keeps.trans (relations.keeps.trans embedded.keeps))
    exact ih₃ fitting.beside_relation (stands₃.keep (keeps_connect a₃ o f _ child.index id).1)
      (conforms₃.connect stands₃ fitting.through (own applies) relation child.index id)

theorem Adds.conforms (wired : Wired s root es) (named : ∀ e ∈ es, ∀ t, e.Makes s t → t.Distinct)
    (h : Adds s root row a a') (conforms : a.Conforms s) : a'.Conforms s := by
  cases h with
  | unkeyed => exact conforms
  | @keyed key id type _ a₁ a₂ _ present met relations embedded =>
    have top := wired.root_mem
    have below : ∀ e ∈ root.members.entities, (⟨e.1, e.2⟩ : Entity) ∈ es := fun e he =>
      wired.all ▸ List.mem_cons_of_mem _ (List.mem_map.mpr ⟨e, he, rfl⟩)
    have conforms₁ := met.conforms (wired.walked root top) (named root top) conforms
    have stands₁ : a₁.Stands id type := met.stands.2
    have fitting := Fitting.entity (wired.walked root top) (named root top) below conforms₁ stands₁
    have conforms₂ := relations.conforms wired.walked named fitting stands₁ conforms₁
    exact embedded.conforms wired.walked named fitting (stands₁.keep relations.keeps) conforms₂

theorem addRows_conforms (wired : Wired s root es)
    (named : ∀ e ∈ es, ∀ t, e.Makes s t → t.Distinct)
    (conforms : a.Conforms s) {rows : List (Except Error Row)}
    (h : addRows s root a rows = .ok a') : a'.Conforms s := by
  induction rows generalizing a with
  | nil =>
    cases h
    exact conforms
  | cons row rest ih =>
    obtain ⟨row, -, h⟩ := ok_bind.mp h
    obtain ⟨a₁, added, later⟩ := ok_bind.mp h
    exact ih ((addRow_eq_ok_iff.mp added).conforms wired named conforms) later

/-- Settling the collections of an object keeps to the declarations. -/
theorem conforms_settled {i : Instance} (h : i.Conforms s) : (settled i).fields.Conforms s i.type := by
  have along : ∀ (chains : List (List String)) (o : Object), o.fields.Conforms s i.type →
      (chains.foldl (fun o chain => o.settle chain) o).fields.Conforms s i.type := by
    intro chains
    induction chains with
    | nil => exact fun o h => h
    | cons chain rest ih => exact fun o h => ih (o.settle chain) (conforms_settle chain h)
  exact along i.arrays i.object h.fields

end Assembly

/-! ## Main result -/

/-- **Every field of every object, and of every value object in it, holds what it is declared for**: a
value of its type, a constant of its enumeration, a reference or a collection. -/
theorem Plan.materialize_conforms {s : Schema} {name : String} {p : Plan}
    {rows : List (Except Error Row)} {g : Graph} (built : Plan.build s name = .ok p)
    (named : p.NamesFields s) (made : p.materialize s rows = .ok g) :
    ∀ o ∈ g.objects, ∃ t, s.describe o.typeName = .ok t ∧ o.fields.Conforms s t := by
  obtain ⟨root, has_root, wired⟩ := wired_of_build built
  unfold Plan.materialize at made
  rw [has_root] at made
  obtain ⟨a, run, rfl⟩ := map_eq_ok.mp made
  have conforms : a.Conforms s :=
    addRows_conforms wired named (fun _ _ none => absurd none.symm (Option.some_ne_none _)) run
  intro o mem
  obtain ⟨i, hi, rfl⟩ := List.mem_map.mp mem
  obtain ⟨id, at_id⟩ := List.mem_iff_getElem?.mp hi
  have here := conforms id i at_id
  have typeName : (settled i).typeName = i.type.name :=
    (typeName_foldl_settle i.object i.arrays).trans here.typeName
  exact ⟨i.type, typeName ▸ here.described.self, conforms_settled here⟩

theorem materialize_conforms_staff : ∃ p g, Plan.build staff "Person" = .ok p ∧
    p.NamesFields staff ∧ p.materialize staff (staffRows.map .ok) = .ok g ∧ g.objectCount = 5 ∧
    ∀ o ∈ g.objects, ∃ t, staff.describe o.typeName = .ok t ∧ o.fields.Conforms staff t := by
  obtain ⟨p, built, shape⟩ := ok_of_map (x := Plan.build staff "Person")
    (f := fun p => (p.materialize staff (staffRows.map .ok)).toOption.map (·.objectCount))
    (b := some 5) (by decide +kernel)
  obtain ⟨g, made, count⟩ := ok_of_map shape
  have names : staff.NamesFields := by decide +kernel
  have named := names.plan built
  exact ⟨p, g, built, named, made, count, Plan.materialize_conforms built named made⟩

end Orm
