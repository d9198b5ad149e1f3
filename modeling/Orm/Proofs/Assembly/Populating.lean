import Orm.Proofs.Assembly.Paths

/-!
# `Proofs.Assembly.Populating` — what an object is made with

Objects and value objects are populated in the same way, so what is said of objects here is said of value
objects as well, at any depth. While an object is made, the paths of its collections of fixed size are noted
down: those of its relations that are declared so, also where the value object that they lie in is left out.

## Contents
- **Value objects.** `embedded_of_populateEmbedded`, `Populated.embedded`.
- **Collections.** `Populated.relation`, `Populated.mem_arrays_iff`.
-/

namespace Orm

open Schema Plan Assembly

section

variable {s : Schema} {row : Row} {path name : String} {applies : FieldModel → Bool} {m : Members}
  {chain : List String} {fields : Fields} {made : Fields × List (List String)} {o : Object}

/-! ## Value objects -/

/-- A value object was there before, or was made of members that apply and has data. -/
theorem embedded_of_populateEmbedded
    (h : populateEmbedded s row path m applies chain fields = .ok made)
    (found : made.1.get? name = some (.embedded o)) :
    fields.get? name = some (.embedded o) ∨
      ∃ v ∈ m.embeddeds, applies v.1 = true ∧ v.1.name = name ∧ ∃ value,
        Populated s row path (fun _ => true) v.2.2 (chain ++ [name]) value ∧
        hasData value.1 = true ∧ o = ⟨v.2.1.name, path, value.1⟩ := by
  induction m generalizing fields made with
  | nil =>
    cases h
    exact .inl found
  | column f label rest ih => exact ih h found
  | relation f kind child inner rest _ ih => exact ih h found
  | embedded f t inner rest _ ih =>
    by_cases own : applies f = true
    case neg =>
      rw [populateEmbedded_of_not own] at h
      refine (ih h found).imp_right ?_
      rintro ⟨v, hv, made_of⟩
      exact ⟨v, List.mem_cons_of_mem _ hv, made_of⟩
    obtain ⟨value, later, populated, beside, rfl⟩ := (populateEmbedded_eq_ok_iff own).mp h
    rcases ih beside found with before | ⟨v, hv, made_of⟩
    case inr => exact .inr ⟨v, List.mem_cons_of_mem _ hv, made_of⟩
    split at before
    next data =>
      rw [Fields.get?_set] at before
      split at before
      next here =>
        cases before
        subst here
        exact .inr ⟨_, List.mem_cons_self, own, rfl, value, populated, data, rfl⟩
      next => exact .inl before
    next => exact .inl before

/-- **A value object was made of members that apply and has data.** -/
theorem Populated.embedded (h : Populated s row path applies m chain made)
    (found : made.1.get? name = some (.embedded o)) :
    ∃ v ∈ m.embeddeds, applies v.1 = true ∧ v.1.name = name ∧ ∃ value,
      Populated s row path (fun _ => true) v.2.2 (chain ++ [name]) value ∧
      hasData value.1 = true ∧ o = ⟨v.2.1.name, path, value.1⟩ := by
  obtain ⟨values, deep, read, below, rfl⟩ := h
  have kept : deep.1.get? name = some (.embedded o) := by
    have or_list : (emptyLists applies chain m.relations deep.1).1.get? name = deep.1.get? name ∨ _ :=
      get?_emptyLists_or
    rcases or_list with kept | ⟨listed, -⟩
    · exact kept.symm.trans found
    · cases listed.symm.trans found
  refine (embedded_of_populateEmbedded below kept).resolve_left fun before => ?_
  have or_value : values.get? name = Fields.nil.get? name ∨ _ := get?_readColumns read
  rcases or_value with none | ⟨⟨v, value⟩, -⟩
  · cases none.symm.trans before
  · cases value.symm.trans before

/-! ## Collections -/

/-- **A relation of an object that was just made is missing, or an empty collection that one of its
members leads to.** -/
theorem Populated.relation {t : TypeModel} {q : List String} {f : FieldModel}
    (h : Populated s row path applies m chain made) (plain : m.Plain s t applies)
    (leads : FieldPath s t q f) {typeName at_ : String} {slot : Slot}
    (found : (Object.mk typeName at_ made.1).at? q = some slot) :
    slot = .leaf (.list []) ∧ ∃ x ∈ m.sites [], applies x.gate = true ∧ x.path = q ∧
      x.kind.isMany = true := by
  induction leads generalizing m applies chain made typeName at_ with
  | @here t f mem relation =>
    obtain ⟨distinct, columns, relations, embeddeds, described, -⟩ := plain
    obtain ⟨values, deep, read, below, rfl⟩ := h
    have step : (emptyLists applies chain m.relations deep.1).1.get? f.name = none ∨ _ :=
      get?_of_steps read below rfl
    rcases step with none | value | value | listed
    · cases none.symm.trans found
    · obtain ⟨-, c, hc, own, same⟩ := value
      obtain ⟨mem', single⟩ := columns c hc own
      rw [distinct.eq_of_name_eq mem' mem same] at single
      exact absurd single (Members.not_single_of_relation relation)
    · obtain ⟨-, v, hv, own, same⟩ := value
      obtain ⟨name, cls, -⟩ := described v hv
      rw [← distinct.eq_of_name_eq (embeddeds v hv own) mem same, not_relation_of_embedded cls] at relation
      cases relation
    · obtain ⟨list, r, hr, own, many, same⟩ := listed
      refine ⟨Option.some.inj (found.symm.trans list), _, Members.mem_sites_iff.mpr (.inl ⟨r, hr, rfl⟩),
        own, ?_, many⟩
      rw [← same]
      rfl
  | @inside t u g f name rest mem cls describes leads ih =>
    obtain ⟨distinct, -, -, embeddeds, described, inside⟩ := plain
    rw [Object.at?_cons _ leads.ne_nil] at found
    obtain ⟨inner, value, inside_found⟩ := Option.bind_eq_some_iff.mp found
    obtain ⟨v, hv, own, same, w, populated, -, rfl⟩ := h.embedded (Object.get?_of_embedded? value)
    obtain rfl := distinct.eq_of_name_eq (embeddeds v hv own) mem same
    obtain ⟨name', cls', describes'⟩ := described v hv
    cases cls.symm.trans cls'
    cases describes.symm.trans describes'
    obtain ⟨empty, y, hy, -, path, many⟩ := ih populated (inside v hv) inside_found
    refine ⟨empty, _, Members.mem_sites_iff.mpr (.inr ⟨v, hv, y, hy, rfl⟩), own, ?_, many⟩
    rw [← path]
    rfl

/-- The collections of fixed size among relations that apply. -/
theorem mem_emptyLists_iff {relations : List (FieldModel × RelationKind × EntityHead × Members)}
    {q : List String} :
    q ∈ (emptyLists applies chain relations fields).2 ↔
      ∃ r ∈ relations, applies r.1 = true ∧ r.2.1.isMany = true ∧ r.1.cardinality = .array ∧
        chain ++ [r.1.name] = q := by
  induction relations generalizing fields with
  | nil => simp [emptyLists]
  | cons r rest ih =>
    obtain ⟨f, kind, child, inner⟩ := r
    unfold emptyLists
    rw [List.exists_mem_cons_iff]
    split
    next here =>
      obtain ⟨own, many⟩ := Bool.and_eq_true_iff.mp here
      dsimp only
      by_cases fixed : f.cardinality = .array
      · rw [if_pos (beq_iff_eq.mpr fixed), List.mem_cons, ih]
        exact or_congr ⟨fun same => ⟨own, many, fixed, same.symm⟩, fun h => h.2.2.2.symm⟩ Iff.rfl
      · rw [if_neg (mt beq_iff_eq.mp fixed), ih]
        exact (or_iff_right fun h => fixed h.2.2.1).symm
    next foreign =>
      rw [ih]
      exact (or_iff_right fun h => foreign (Bool.and_eq_true_iff.mpr ⟨h.1, h.2.1⟩)).symm

/-- Members that apply have a collection of fixed size at a path behind a chain. -/
def Plan.Members.FixedAt (m : Members) (applies : FieldModel → Bool) (chain q : List String) : Prop :=
  ∃ x ∈ m.sites [], applies x.gate = true ∧ x.kind.isMany = true ∧ x.field.cardinality = .array ∧
    chain ++ x.path = q

/-- It is one of their own, or it lies in a value object. -/
theorem Plan.Members.fixedAt_iff {q : List String} :
    m.FixedAt applies chain q ↔
      (∃ r ∈ m.relations, applies r.1 = true ∧ r.2.1.isMany = true ∧ r.1.cardinality = .array ∧
        chain ++ [r.1.name] = q) ∨
      ∃ v ∈ m.embeddeds, applies v.1 = true ∧
        v.2.2.FixedAt (fun _ => true) (chain ++ [v.1.name]) q := by
  constructor
  · rintro ⟨x, hx, own, many, fixed, lies⟩
    rcases mem_sites_iff.mp hx with ⟨r, hr, rfl⟩ | ⟨v, hv, y, hy, rfl⟩
    · exact .inl ⟨r, hr, own, many, fixed, lies⟩
    · exact .inr ⟨v, hv, own, y, hy, rfl, many, fixed, (List.append_assoc ..).trans lies⟩
  · rintro (⟨r, hr, own, many, fixed, lies⟩ | ⟨v, hv, own, y, hy, -, many, fixed, lies⟩)
    · exact ⟨_, mem_sites_iff.mpr (.inl ⟨r, hr, rfl⟩), own, many, fixed, lies⟩
    · refine ⟨_, mem_sites_iff.mpr (.inr ⟨v, hv, y, hy, rfl⟩), own, many, fixed, ?_⟩
      exact (List.append_assoc chain [v.1.name] y.path).symm.trans lies

/-- What is noted down of value objects, if it is known for each of them. -/
theorem mem_populateEmbedded_iff {q : List String}
    (h : populateEmbedded s row path m applies chain fields = .ok made)
    (inside : ∀ v ∈ m.embeddeds, ∀ {chain value},
      Populated s row path (fun _ => true) v.2.2 chain value →
        (q ∈ value.2 ↔ v.2.2.FixedAt (fun _ => true) chain q)) :
    q ∈ made.2 ↔ ∃ v ∈ m.embeddeds, applies v.1 = true ∧
      v.2.2.FixedAt (fun _ => true) (chain ++ [v.1.name]) q := by
  induction m generalizing fields made with
  | nil =>
    cases h
    exact iff_of_false List.not_mem_nil fun ⟨_, hv, _⟩ => List.not_mem_nil hv
  | column f label rest ih => exact ih h inside
  | relation f kind child inner rest _ ih => exact ih h inside
  | embedded f t inner rest _ ih =>
    have beside := fun v hv => @inside v (List.mem_cons_of_mem _ hv)
    rw [Members.embeddeds, List.exists_mem_cons_iff]
    by_cases own : applies f = true
    · obtain ⟨value, later, populated, run, rfl⟩ := (populateEmbedded_eq_ok_iff own).mp h
      rw [List.mem_append, ih run beside, inside _ List.mem_cons_self populated]
      exact or_congr_left (and_iff_right own).symm
    · rw [populateEmbedded_of_not own] at h
      rw [ih h beside]
      exact (or_iff_right fun first => own first.1).symm

/-- **The collections of fixed size that are noted down are the relations that are declared so**, in the
object and in its value objects. -/
theorem Populated.mem_arrays_iff {q : List String}
    (h : Populated s row path applies m chain made) : q ∈ made.2 ↔ m.FixedAt applies chain q := by
  have of_inside {m : Members} {applies : FieldModel → Bool} {chain : List String}
      {made : Fields × List (List String)}
      (inside : ∀ v ∈ m.embeddeds, ∀ {chain value},
        Populated s row path (fun _ => true) v.2.2 chain value →
          (q ∈ value.2 ↔ v.2.2.FixedAt (fun _ => true) chain q))
      (h : Populated s row path applies m chain made) :
      q ∈ made.2 ↔ m.FixedAt applies chain q := by
    obtain ⟨values, deep, -, below, rfl⟩ := h
    rw [List.mem_append, mem_populateEmbedded_iff below inside, mem_emptyLists_iff, or_comm,
      Members.fixedAt_iff]
  have within (m : Members) : ∀ v ∈ m.embeddeds, ∀ {chain value},
      Populated s row path (fun _ => true) v.2.2 chain value →
        (q ∈ value.2 ↔ v.2.2.FixedAt (fun _ => true) chain q) := by
    induction m with
    | nil => exact fun _ hv => absurd hv List.not_mem_nil
    | column f label rest ih => exact ih
    | relation f kind child inner rest _ ih => exact ih
    | embedded f t inner rest inner_ih ih =>
      intro v hv
      rcases List.mem_cons.mp hv with rfl | later
      · exact of_inside inner_ih
      · exact ih v later
  exact of_inside (within m) h

end

end Orm
