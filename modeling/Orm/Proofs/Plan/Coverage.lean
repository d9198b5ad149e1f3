import Orm.Proofs.Plan.Sites
import Orm.Proofs.Schema.Bounds

/-!
# `Proofs.Plan.Coverage` — nothing that is stored is left out

However a hierarchy is spread over tables, the levels of a layout hold every field of the declared
type and of its descendants: the fields of types without a table move to the next table below them,
or are left over for the main one. The walk makes a member of each field of the levels that is not
transient, in their order. So an entity has a member for each stored field of every type that its rows
may have.

## Contents
- **Layouts.** `covered_of_mem_descendants`, `Layout.Family`, `family_of_layout`.
- **Members.** `Members.fields`, `Task.stored`, `Derives.fields_eq`.
- **Entities.** `Entity.Walked.typeOf_mem`, `Entity.Walked.mem_fields_iff`.
-/

namespace Orm.Schema

variable {s : Schema}

/-! ## Layouts -/

/-- **What a descendant has is of the base or of a descendant**: every type between them is one. -/
theorem covered_of_mem_descendants {depth : Nat} {base : TypeModel} (described : s.Describes base)
    {below : List TypeModel} (h : descendantsBy (describe s) depth base = .ok below)
    {t : TypeModel} (ht : t ∈ below) {f : FieldModel} (hf : f ∈ t.allFields) :
    f ∈ base.allFields ∨ ∃ u ∈ below, f ∈ u.fields := by
  induction depth generalizing base below with
  | zero =>
    cases h
    cases ht
  | succ depth ih =>
    obtain ⟨subs, listed, sub, hsub, deeper, descend, among, found⟩ := exists_of_mem_descendants h ht
    obtain ⟨sub_described, above⟩ := extends_of_subclass described listed hsub
    have from_sub : f ∈ sub.allFields → f ∈ base.allFields ∨ ∃ u ∈ below, f ∈ u.fields := by
      intro own
      obtain ⟨l, hl, inLayer⟩ := mem_allFields.mp own
      rw [above] at hl
      rcases List.mem_cons.mp hl with rfl | inherited
      · exact .inr ⟨sub, among List.mem_cons_self, inLayer⟩
      · exact .inl (mem_allFields.mpr ⟨l, inherited, inLayer⟩)
    rcases found with rfl | inside
    · exact from_sub hf
    · rcases ih sub_described descend inside with own | ⟨u, hu, inType⟩
      · exact from_sub own
      · exact .inr ⟨u, among (List.mem_cons_of_mem _ hu), inType⟩

/-- The types that the rows of a layout may have: the declared one and its descendants. All that they
store has a level, and the levels hold nothing else. -/
structure Layout.Family (s : Schema) (l : Layout) (below : List TypeModel) : Prop where
  descendants : s.descendants l.declared = .ok below
  owners : ∀ level ∈ l.below, level.owner ∈ below
  candidates : ∀ d, l.discrimination = some d → d.candidates = l.declared :: below
  told : ∀ t ∈ below, (∃ level ∈ l.below, level.owner = t) ∨ l.discrimination.isSome = true
  covers : ∀ t ∈ l.declared :: below, ∀ f ∈ t.allFields,
    ∃ level ∈ l.above ++ l.main :: l.below, f ∈ level.fields
  sources : ∀ level ∈ l.above ++ l.main :: l.below, ∀ f ∈ level.fields,
    f ∈ l.declared.allFields ∨ ∃ t ∈ below, f ∈ t.fields

/-- A field of a type or of one of its descendants is of the ancestry or a descendant's own. -/
theorem covered_of_mem_family {base : TypeModel} {below : List TypeModel} (described : s.Describes base)
    (h : s.descendants base = .ok below) {t : TypeModel} (ht : t ∈ base :: below) {f : FieldModel}
    (hf : f ∈ t.allFields) : f ∈ base.allFields ∨ ∃ u ∈ below, f ∈ u.fields := by
  rcases List.mem_cons.mp ht with rfl | inside
  · exact .inl hf
  · exact covered_of_mem_descendants described h inside hf

/-- **A layout has a family.** -/
theorem family_of_layout {declared : TypeModel} {l : Layout} (described : s.Describes declared)
    (h : s.layout declared = .ok l) : ∃ below, l.Family s below := by
  cases laid_of_layout h with
  | @discriminated base below _ home based descend =>
    refine ⟨below, ?_⟩
    constructor
    case descendants => exact descend
    case owners => exact fun _ hl => nomatch hl
    case candidates =>
      intro d hd
      cases hd
      rfl
    case told => exact fun _ _ => .inr rfl
    case covers =>
      intro t ht f hf
      refine ⟨_, List.mem_singleton_self _, ?_⟩
      rcases covered_of_mem_family described descend ht hf with own | ⟨u, hu, inType⟩
      · exact List.mem_append_left _ own
      · exact List.mem_append_right _ (List.mem_flatMap.mpr ⟨u, hu, inType⟩)
    case sources =>
      intro level hl f hf
      obtain rfl := List.mem_singleton.mp hl
      exact (List.mem_append.mp hf).imp_right List.mem_flatMap.mp
  | @vertical below above levels main alone descend placed spread =>
    refine ⟨below, ?_⟩
    constructor
    case descendants => exact descend
    case owners =>
      intro level hl
      obtain ⟨sub, hsub, made⟩ := mem_of_mapM placed hl
      exact (of_subclassLevel made).1 ▸ hsub
    case candidates => exact nofun
    case told =>
      intro t ht
      obtain ⟨level, made, hl⟩ := exists_of_mapM placed ht
      exact .inl ⟨level, hl, (of_subclassLevel made).1⟩
    case covers =>
      intro t ht f hf
      rw [List.append_cons]
      rcases covered_of_mem_family described descend ht hf with ancestral | ⟨u, hu, inType⟩
      · obtain ⟨level, hl, inLevel⟩ := spread.mem_allFields_iff.mpr ancestral
        exact ⟨level, List.mem_append_left _ hl, inLevel⟩
      · obtain ⟨level, made, hl⟩ := exists_of_mapM placed hu
        exact ⟨level, List.mem_append_right _ hl, (of_subclassLevel made).2 ▸ inType⟩
    case sources =>
      intro level hl f hf
      rw [List.append_cons] at hl
      rcases List.mem_append.mp hl with ancestral | sub
      · exact .inl (spread.mem_allFields_iff.mp ⟨level, ancestral, hf⟩)
      · obtain ⟨u, hu, made⟩ := mem_of_mapM placed sub
        exact .inr ⟨u, hu, (of_subclassLevel made).2 ▸ hf⟩

end Orm.Schema

namespace Orm.Plan

open Schema

/-! ## Members -/

/-- The fields that members are made of, value objects and relations included. -/
def Members.fields : Members → List FieldModel
  | .nil => []
  | .column f _ rest => f :: rest.fields
  | .embedded f _ _ rest => f :: rest.fields
  | .relation f _ _ _ rest => f :: rest.fields

theorem Members.fields_append (a b : Members) : (a ++ b).fields = a.fields ++ b.fields := by
  show (a.append b).fields = _
  induction a with
  | nil => rfl
  | column f label rest ih => simp [append, fields, ih]
  | embedded f t inner rest _ ih => simp [append, fields, ih]
  | relation f k child inner rest _ ih => simp [append, fields, ih]

/-- The fields that are not transient. -/
def storedFields (fs : List FieldModel) : List FieldModel :=
  fs.filter fun f => !f.transient

theorem mem_storedFields {fs : List FieldModel} {f : FieldModel} :
    f ∈ storedFields fs ↔ f ∈ fs ∧ f.transient = false := by
  unfold storedFields
  rw [List.mem_filter, Bool.not_eq_true']

theorem storedFields_of_transient {f : FieldModel} {fs : List FieldModel} (h : f.transient = true) :
    storedFields (f :: fs) = storedFields fs :=
  List.filter_cons_of_neg (by rw [h]; exact Bool.noConfusion)

theorem storedFields_of_stored {f : FieldModel} {fs : List FieldModel} (h : f.transient = false) :
    storedFields (f :: fs) = f :: storedFields fs :=
  List.filter_cons_of_pos (by rw [h]; rfl)

/-- The fields that a part of the walk makes members of. -/
def Task.stored : Task → List FieldModel
  | .field _ f => [f]
  | .fields _ fs => storedFields fs
  | .levels _ ps => ps.flatMap fun p => storedFields p.level.fields
  | .entity path _ _ layout _ =>
    (placedLevels path layout).flatMap fun p => storedFields p.level.fields

/-- **The walk makes a member of each stored field, in order.** -/
theorem Derives.fields_eq {s : Schema} {t : Task} {d d' : Draft} {m : Members}
    {asked : List SelectItem} (h : Derives s t d m asked d') : m.fields = t.stored := by
  induction h with
  | key => rfl
  | column => rfl
  | computed => rfl
  | embedded => rfl
  | relation => rfl
  | done => rfl
  | skip transient _ ih => exact ih.trans (storedFields_of_transient transient).symm
  | next stored _ _ first rest =>
    rw [Members.fields_append, first, rest]
    exact (storedFields_of_stored stored).symm
  | bottom => rfl
  | level _ _ first rest => rw [Members.fields_append, first, rest, Task.stored, Task.stored,
      Task.stored, List.flatMap_cons]
  | entity _ _ _ _ ih => exact ih

/-- Every level of a layout has a place. -/
theorem exists_placed (path : String) {layout : Layout} {level : Level}
    (h : level ∈ layout.above ++ layout.main :: layout.below) :
    ∃ p ∈ placedLevels path layout, p.level = level := by
  unfold placedLevels
  rcases List.mem_append.mp h with above | h
  · exact ⟨_, List.mem_append_left _ (List.mem_map_of_mem above), rfl⟩
  rcases List.mem_cons.mp h with rfl | below
  · exact ⟨_, List.mem_append_right _ List.mem_cons_self, rfl⟩
  · exact ⟨_, List.mem_append_right _ (List.mem_cons_of_mem _ (List.mem_map_of_mem below)), rfl⟩

namespace Members

variable {s : Schema} {P : FieldModel → Prop} {m : Members} {f : FieldModel}

/-- A field that is of another class than the first is one of the rest. -/
theorem mem_cons_and_iff {g : FieldModel} {fs : List FieldModel} {q : Prop} (other : q → f ≠ g) :
    f ∈ g :: fs ∧ q ↔ f ∈ fs ∧ q :=
  and_congr_left fun hq => ⟨fun mem => (List.mem_cons.mp mem).resolve_left (other hq),
    List.mem_cons_of_mem g⟩

theorem not_single_of_relation (h : f.isRelation = true) : ¬ f.isSingle = true := by
  unfold FieldModel.isSingle
  rw [h]
  exact Bool.noConfusion

theorem not_single_of_embedded (h : f.isEmbedded = true) : ¬ f.isSingle = true := by
  unfold FieldModel.isSingle
  rw [h, Bool.not_true, Bool.and_false]
  exact Bool.noConfusion

theorem isEmbedded_of_cls {name : String} (cls : f.cls = .embedded name) : f.isEmbedded = true := by
  unfold FieldModel.isEmbedded
  rw [cls]

/-- A single value among the fields of members has a column. -/
theorem mem_columns_iff (h : m.Typed s P) :
    (∃ label, (f, label) ∈ m.columns) ↔ f ∈ m.fields ∧ f.isSingle = true := by
  induction m with
  | nil => exact ⟨fun ⟨_, mem⟩ => absurd mem List.not_mem_nil, fun h => absurd h.1 List.not_mem_nil⟩
  | column g label rest ih =>
    obtain ⟨⟨-, single⟩, others⟩ := h
    constructor
    · rintro ⟨other, mem⟩
      rcases List.mem_cons.mp mem with same | later
      · cases same
        exact ⟨List.mem_cons_self, single⟩
      · exact ((ih others).mp ⟨other, later⟩).imp_left (List.mem_cons_of_mem _)
    · rintro ⟨mem, own⟩
      rcases List.mem_cons.mp mem with rfl | later
      · exact ⟨label, List.mem_cons_self⟩
      · obtain ⟨other, found⟩ := (ih others).mpr ⟨later, own⟩
        exact ⟨other, List.mem_cons_of_mem _ found⟩
  | embedded g t inner rest _ ih =>
    obtain ⟨⟨-, name, cls, -⟩, -, others⟩ := h
    have other : f.isSingle = true → f ≠ g := by
      rintro single rfl
      exact not_single_of_embedded (isEmbedded_of_cls cls) single
    exact (ih others).trans (mem_cons_and_iff other).symm
  | relation g kind child inner rest _ ih =>
    obtain ⟨⟨-, relation, -⟩, others⟩ := h
    have other : f.isSingle = true → f ≠ g := by
      rintro single rfl
      exact not_single_of_relation relation single
    exact (ih others).trans (mem_cons_and_iff other).symm

/-- A relation among the fields of members leads to an entity. -/
theorem mem_relations_iff (h : m.Typed s P) :
    (∃ r ∈ m.relations, r.1 = f) ↔ f ∈ m.fields ∧ f.isRelation = true := by
  induction m with
  | nil =>
    exact ⟨fun ⟨_, mem, _⟩ => absurd mem List.not_mem_nil, fun h => absurd h.1 List.not_mem_nil⟩
  | column g label rest ih =>
    obtain ⟨⟨-, single⟩, others⟩ := h
    have other : f.isRelation = true → f ≠ g := by
      rintro relation rfl
      exact not_single_of_relation relation single
    exact (ih others).trans (mem_cons_and_iff other).symm
  | embedded g t inner rest _ ih =>
    obtain ⟨⟨-, name, cls, -⟩, -, others⟩ := h
    have other : f.isRelation = true → f ≠ g := by
      rintro relation rfl
      rw [not_relation_of_embedded cls] at relation
      cases relation
    exact (ih others).trans (mem_cons_and_iff other).symm
  | relation g kind child inner rest _ ih =>
    obtain ⟨⟨-, relation, -⟩, others⟩ := h
    constructor
    · rintro ⟨r, mem, rfl⟩
      rcases List.mem_cons.mp mem with rfl | later
      · exact ⟨List.mem_cons_self, relation⟩
      · exact ((ih others).mp ⟨r, later, rfl⟩).imp_left (List.mem_cons_of_mem _)
    · rintro ⟨mem, own⟩
      rcases List.mem_cons.mp mem with rfl | later
      · exact ⟨_, List.mem_cons_self, rfl⟩
      · obtain ⟨r, found, same⟩ := (ih others).mpr ⟨later, own⟩
        exact ⟨r, List.mem_cons_of_mem _ found, same⟩

/-- Only embedded fields make value objects. -/
theorem mem_fields_of_mem_embeddeds (h : m.Typed s P) {v : FieldModel × TypeModel × Members}
    (hv : v ∈ m.embeddeds) : v.1 ∈ m.fields ∧ v.1.isEmbedded = true := by
  induction m with
  | nil => cases hv
  | column g label rest ih => exact (ih h.2 hv).imp_left (List.mem_cons_of_mem _)
  | embedded g t inner rest _ ih =>
    obtain ⟨⟨-, name, cls, -⟩, -, others⟩ := h
    rcases List.mem_cons.mp hv with rfl | later
    · exact ⟨List.mem_cons_self, isEmbedded_of_cls cls⟩
    · exact (ih others later).imp_left (List.mem_cons_of_mem _)
  | relation g kind child inner rest _ ih => exact (ih h.2 hv).imp_left (List.mem_cons_of_mem _)

end Members

/-! ## Entities -/

namespace Entity.Walked

variable {s : Schema} {e : Entity} {f : FieldModel}

/-- **A row tells the declared type of its entity or a descendant of it.** -/
theorem typeOf_mem (h : e.Walked s) : ∃ below, s.descendants e.head.declared = .ok below ∧
    ∀ row, typeOf e.head row ∈ e.head.declared :: below := by
  obtain @⟨name, target, layout, _, _, _, _, d, _, members, _, describes, lays, walk⟩ := h
  obtain ⟨-, declared⟩ := sound_of_layout ⟨name, describes⟩ lays
  obtain ⟨below, family⟩ := family_of_layout ⟨name, describes⟩ lays
  refine ⟨below, family.descendants, fun row => ?_⟩
  refine typeOf_of_layout (P := (· ∈ layout.declared :: below)) List.mem_cons_self
    (fun level hl => List.mem_cons_of_mem _ (family.owners level hl)) ?_ d.entityCount row
  intro dis found t ht
  rw [family.candidates dis found] at ht
  exact ht

/-- **Of the fields of a type that its rows may have, an entity has those that are stored.** -/
theorem mem_fields_iff (h : e.Walked s) (row : Row) (hf : f ∈ (typeOf e.head row).allFields) :
    f ∈ e.members.fields ↔ f.transient = false := by
  have possible := h.typeOf_mem
  obtain @⟨name, target, layout, path, _, _, _, d, _, members, _, describes, lays, walk⟩ := h
  obtain ⟨below, family⟩ := family_of_layout ⟨name, describes⟩ lays
  obtain ⟨below', descend, told⟩ := possible
  obtain rfl := Except.ok.inj (family.descendants.symm.trans descend)
  show f ∈ members.fields ↔ _
  rw [walk.fields_eq]
  constructor
  · intro mem
    obtain ⟨p, -, inLevel⟩ := List.mem_flatMap.mp mem
    exact (mem_storedFields.mp inLevel).2
  · intro stored
    obtain ⟨level, hl, inLevel⟩ := family.covers _ (told row) f hf
    obtain ⟨p, hp, rfl⟩ := exists_placed path hl
    exact List.mem_flatMap.mpr ⟨p, hp, mem_storedFields.mpr ⟨inLevel, stored⟩⟩

end Entity.Walked

end Orm.Plan
