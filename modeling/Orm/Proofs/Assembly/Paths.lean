import Orm.Proofs.Assembly.Conformity

/-!
# `Proofs.Assembly.Paths` — where the fields of an object lie

The fields of an object are found by their names, and those in its value objects along paths of names.
Where no type that a plan makes has two fields of one name, a name leads to one field, and a path to one
relation: nothing lies behind it, and it lies behind nothing but value objects. This is said of the types
that the plan makes, not of all that the schema has.

## Contents
- **Members of a type.** `Members.Plain`, `Entity.Walked.plain_of_makes`.
- **Relations.** `mem_sites_iff`, `PlainPath`, `PlainPath.eq_of_through`, `Members.Plain.path`.
- **Relations of an entity.** `Entity.Walked.plainPath`, `eq_or_apart`, `apart_of_makes`.
-/

namespace Orm

open Schema Plan Assembly

/-! ## Members of a type -/

/-- What members are on objects of a type: each member that applies is a field of the type, found by its
name, and the members of a value object are in turn those of its type. -/
inductive Plan.Members.Plain (s : Schema) : TypeModel → (FieldModel → Bool) → Members → Prop where
  | intro {t : TypeModel} {applies : FieldModel → Bool} {m : Members} (distinct : t.Distinct)
      (columns : ∀ c ∈ m.columns, applies c.1 = true → c.1 ∈ t.allFields ∧ c.1.isSingle = true)
      (relations : ∀ r ∈ m.relations, applies r.1 = true →
        r.1 ∈ t.allFields ∧ r.1.isRelation = true ∧ r.2.1 = relationKind r.1)
      (embeddeds : ∀ v ∈ m.embeddeds, applies v.1 = true → v.1 ∈ t.allFields)
      (described : ∀ v ∈ m.embeddeds, ∃ name, v.1.cls = .embedded name ∧
        s.describe name = .ok v.2.1)
      (inside : ∀ v ∈ m.embeddeds, v.2.2.Plain s v.2.1 fun _ => true) : Plain s t applies m

section

variable {s : Schema} {t : TypeModel} {m : Members} {applies : FieldModel → Bool}

theorem Schema.TypeModel.Distinct.eq_of_name_eq (distinct : t.Distinct) {f g : FieldModel}
    (hf : f ∈ t.allFields) (hg : g ∈ t.allFields) (same : f.name = g.name) : f = g :=
  List.inj_on_of_nodup_map distinct hf hg same

/-- **Members that are fields of a type are plain where names tell fields apart.** -/
theorem Plan.Members.Typed.plain (h : m.Typed s fun f => applies f = true → f ∈ t.allFields)
    (distinct : t.Distinct) (values : ∀ u ∈ m.valueTypes, u.Distinct) : m.Plain s t applies := by
  have within {m : Members} : ∀ {P : FieldModel → Prop}, m.Typed s P →
      (∀ u ∈ m.valueTypes, u.Distinct) →
      ∀ v ∈ m.embeddeds, v.2.2.Plain s v.2.1 fun _ => true := by
    induction m with
    | nil => exact fun _ _ _ hv => absurd hv List.not_mem_nil
    | column f label rest ih => exact fun typed values => ih typed.2 values
    | relation f kind child inner rest _ ih => exact fun typed values => ih typed.2 values
    | embedded f u inner rest inner_ih ih =>
      intro P typed values v hv
      have inside : ∀ t ∈ inner.valueTypes, t.Distinct := fun t ht =>
        values t (List.mem_cons_of_mem _ (List.mem_append_left _ ht))
      have beside : ∀ t ∈ rest.valueTypes, t.Distinct := fun t ht =>
        values t (List.mem_cons_of_mem _ (List.mem_append_right _ ht))
      rcases List.mem_cons.mp hv with rfl | later
      · have all := typed.2.1
        exact .intro (values u List.mem_cons_self) (fun c hc _ => all.columns c hc)
          (fun r hr _ => all.relations r hr) (fun w hw _ => (all.embeddeds w hw).1)
          (fun w hw => (all.embeddeds w hw).2.1) (inner_ih all inside)
      · exact ih typed.2.2 beside v later
  exact .intro distinct (fun c hc own => (h.columns c hc).imp_left fun mem => mem own)
    (fun r hr own => (h.relations r hr).imp_left fun mem => mem own)
    (fun v hv own => (h.embeddeds v hv).1 own) (fun v hv => (h.embeddeds v hv).2.1) (within h values)

/-- The members of an entity are plain on the objects of each type that it makes. -/
theorem Plan.Entity.Walked.plain_of_makes {e : Entity} (walked : e.Walked s)
    (named : ∀ u, e.Makes s u → u.Distinct) (makes : e.Makes s t) :
    e.members.Plain s t fun f => t.isA f.owner :=
  (walked.typed (walked.describes makes)).plain (named t makes) fun u hu => named u (.inl hu)

/-- An entity makes objects of the types that rows tell. -/
theorem Plan.Entity.Walked.makes_typeOf {e : Entity} (walked : e.Walked s) (row : Row) :
    e.Makes s (typeOf e.head row) := by
  obtain ⟨below, descend, told⟩ := walked.typeOf_mem
  exact .inr ⟨below, descend, told row⟩

theorem Plan.Entity.Walked.plain {e : Entity} (walked : e.Walked s)
    (named : ∀ u, e.Makes s u → u.Distinct) (row : Row) :
    e.members.Plain s (typeOf e.head row) fun f => (typeOf e.head row).isA f.owner :=
  walked.plain_of_makes named (walked.makes_typeOf row)

/-! ## Relations -/

/-- A relation of members is one of them, or one in a value object. -/
theorem Plan.Members.mem_sites_iff {x : Site} :
    x ∈ m.sites [] ↔ (∃ r ∈ m.relations, x = ⟨[], r.1, r.2.1, r.2.2.1, r.2.2.2⟩) ∨
      ∃ v ∈ m.embeddeds, ∃ y ∈ v.2.2.sites [], x = y.below [(v.1, v.2.1)] := by
  induction m with
  | nil => simp [sites, relations, embeddeds]
  | column f label rest ih => exact ih
  | embedded f u inner rest _ ih =>
    have first : inner.sites ([] ++ [(f, u)]) = (inner.sites []).map (Site.below [(f, u)]) :=
      sites_eq_map inner [(f, u)]
    simp only [sites, relations, embeddeds, List.mem_append, first, ih, List.mem_map,
      List.exists_mem_cons_iff]
    constructor
    · rintro (⟨y, hy, rfl⟩ | own | below)
      · exact .inr (.inl ⟨y, hy, rfl⟩)
      · exact .inl own
      · exact .inr (.inr below)
    · rintro (own | ⟨y, hy, rfl⟩ | below)
      · exact .inr (.inl own)
      · exact .inl ⟨y, hy, rfl⟩
      · exact .inr (.inr below)
  | relation f kind child inner rest _ ih =>
    simp only [sites, relations, embeddeds, List.mem_cons, ih, or_and_right, exists_or,
      exists_eq_left]
    exact or_assoc.symm

/-- A path leads through value objects to a relation, and no type on the way has two fields of one
name. -/
inductive PlainPath (s : Schema) : TypeModel → List String → FieldModel → Prop where
  | here {t : TypeModel} {f : FieldModel} (distinct : t.Distinct) (mem : f ∈ t.allFields)
      (relation : f.isRelation = true) : PlainPath s t [f.name] f
  | inside {t u : TypeModel} {g f : FieldModel} {name : String} {path : List String}
      (distinct : t.Distinct) (mem : g ∈ t.allFields) (cls : g.cls = .embedded name)
      (describes : s.describe name = .ok u) (rest : PlainPath s u path f) :
      PlainPath s t (g.name :: path) f

theorem PlainPath.fieldPath {path : List String} {f : FieldModel} (h : PlainPath s t path f) :
    FieldPath s t path f := by
  induction h with
  | here _ mem relation => exact .here mem relation
  | inside _ mem cls describes _ ih => exact .inside mem cls describes ih

/-- Where one of two paths leads through the other, they begin alike, and so they do further on. -/
theorem heads_eq_of_through {a b : String} {p q : List String}
    (sub : a :: p <+: b :: q ∨ b :: q <+: a :: p) : a = b ∧ (p <+: q ∨ q <+: p) := by
  rcases sub with sub | sub
  · obtain ⟨same, tails⟩ := List.cons_prefix_cons.mp sub
    exact ⟨same, .inl tails⟩
  · obtain ⟨same, tails⟩ := List.cons_prefix_cons.mp sub
    exact ⟨same.symm, .inr tails⟩

/-- **A plain path to a relation does not lead through another, and leads to one field only.** -/
theorem PlainPath.eq_of_through {p q : List String} {f g : FieldModel} (hp : PlainPath s t p f)
    (hq : FieldPath s t q g) (sub : p <+: q ∨ q <+: p) : p = q ∧ f = g := by
  induction hp generalizing q with
  | here distinct mem relation =>
    cases hq with
    | here mem' =>
      obtain rfl := distinct.eq_of_name_eq mem mem' (heads_eq_of_through sub).1
      exact ⟨rfl, rfl⟩
    | inside mem' cls =>
      have same := distinct.eq_of_name_eq mem mem' (heads_eq_of_through sub).1
      rw [same, not_relation_of_embedded cls] at relation
      cases relation
  | inside distinct mem cls describes _ ih =>
    cases hq with
    | here mem' relation =>
      have same := distinct.eq_of_name_eq mem mem' (heads_eq_of_through sub).1
      rw [← same, not_relation_of_embedded cls] at relation
      cases relation
    | inside mem' cls' describes' rest' =>
      obtain ⟨names, tails⟩ := heads_eq_of_through sub
      obtain rfl := distinct.eq_of_name_eq mem mem' names
      cases cls.symm.trans cls'
      cases describes.symm.trans describes'
      obtain ⟨rfl, rfl⟩ := ih rest' tails
      exact ⟨rfl, rfl⟩

/-- **A relation that applies lies at a plain path, and is of the kind that its field calls for.** -/
theorem Plan.Members.Plain.path (h : m.Plain s t applies) {x : Site} (hx : x ∈ m.sites [])
    (own : applies x.gate = true) :
    PlainPath s t x.path x.field ∧ x.kind = relationKind x.field := by
  induction h generalizing x with
  | intro distinct _ relations embeddeds described _ ih =>
    rcases mem_sites_iff.mp hx with ⟨r, hr, rfl⟩ | ⟨v, hv, y, hy, rfl⟩
    · obtain ⟨mem, relation, kind⟩ := relations r hr own
      exact ⟨.here distinct mem relation, kind⟩
    · obtain ⟨name, cls, describes⟩ := described v hv
      obtain ⟨rest, kind⟩ := ih v hv hy rfl
      exact ⟨.inside distinct (embeddeds v hv own) cls describes rest, kind⟩

end

/-! ## Relations of an entity -/

namespace Plan.Entity.Walked

variable {s : Schema} {e : Entity} {row : Row} {x : Site}

/-- A relation of the objects that a row makes lies at a plain path. -/
theorem plainPath (walked : e.Walked s) (named : ∀ u, e.Makes s u → u.Distinct) (hx : x ∈ e.sites)
    (own : x.applies (typeOf e.head row) = true) :
    PlainPath s (typeOf e.head row) x.path x.field :=
  ((walked.plain named row).path hx own).1

/-- **A path to a relation is that of a given one, or apart from it.** -/
theorem eq_or_apart (walked : e.Walked s) (named : ∀ u, e.Makes s u → u.Distinct)
    (hx : x ∈ e.sites) (own : x.applies (typeOf e.head row) = true) {q : List String}
    {f : FieldModel} (leads : FieldPath s (typeOf e.head row) q f) :
    x.path = q ∧ x.field = f ∨ Apart x.path q := by
  have plain := walked.plainPath named hx own
  by_cases sub : x.path <+: q ∨ q <+: x.path
  · exact .inl (plain.eq_of_through leads sub)
  · exact .inr (not_or.mp sub)

/-- **Neither of two relations of a type that is made lies inside the other.** -/
theorem apart_of_makes (walked : e.Walked s) (named : ∀ u, e.Makes s u → u.Distinct)
    {t : TypeModel} (makes : e.Makes s t) {y : Site} (hx : x ∈ e.sites) (hy : y ∈ e.sites)
    (own_x : x.applies t = true) (own_y : y.applies t = true) (other : x ≠ y) :
    Apart x.path y.path := by
  have plain := walked.plain_of_makes named makes
  have leads := (plain.path hy own_y).1.fieldPath
  exact not_or.mp fun sub =>
    other (walked.path_inj hx hy ((plain.path hx own_x).1.eq_of_through leads sub).1)

end Plan.Entity.Walked

end Orm
