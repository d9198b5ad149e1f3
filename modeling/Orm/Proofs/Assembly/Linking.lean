import Orm.Proofs.Assembly.Run

/-!
# `Proofs.Assembly.Linking` — one row taken apart

Linking an instance succeeds by a run of `Assembly.link`. This module takes such a run apart once:
`Meets` says what meeting an entity can do, `Links` has one rule for each thing that a step of linking
can do, and `Adds` says the same of a whole row. What is proved of rows from here on is proved by
induction on `Links`, and the monad is not opened again.

Nothing is asked of the names of fields here, so this holds of every plan.

## Contents
- **Meeting.** `Meets`, `meet_eq_some_iff`, `meet_eq_none_iff`.
- **Linking.** `Links`, `link_eq_ok_iff`.
- **Rows.** `Adds`, `addRow_eq_ok_iff`.
- **Growth.** `Meets.identities`, `Links.identities`: rows only add instances, and none of the root
  but the one that the row is about.
-/

namespace Orm

open Schema Plan

namespace Assembly

variable {s : Schema} {row : Row} {f : FieldModel} {t : TypeModel} {kind : RelationKind}
  {e child : EntityHead} {m members inner rest : Members} {part : Part} {o : Owner} {key : Key}
  {id : ObjectId} {type : TypeModel} {a a' : Assembly}

/-! ## Meeting -/

/-- An entity is met under a key: a known instance is found, or a new one is made. -/
inductive Meets (s : Schema) (row : Row) (e : EntityHead) (members : Members) (key : Key)
    (a : Assembly) : ObjectId → TypeModel → Assembly → Prop where
  | known {id : ObjectId} {i : Instance} (found : a.find? e.index key = some id)
      (at_id : a.instances[id]? = some i) : Meets s row e members key a id i.type a
  | made {i : Instance} (absent : a.find? e.index key = none)
      (created : create s row e members key = .ok i) :
      Meets s row e members key a a.instances.length i.type (a.add i)

/-- An instance that is found is there. -/
theorem exists_of_find? (found : a.find? e.index key = some id) : ∃ i, a.instances[id]? = some i := by
  obtain ⟨i, at_id, -⟩ := instance_of_identity (identity_of_find? found)
  exact ⟨i, at_id⟩

theorem meet_eq_some_iff :
    meet s row e members a = .ok (some (id, type), a') ↔
      ∃ key, keyOf? e members row = some key ∧ Meets s row e members key a id type a' := by
  unfold meet
  cases present : keyOf? e members row with
  | none =>
    constructor
    · exact nofun
    · rintro ⟨_, none, -⟩
      cases none
  | some key =>
    dsimp only
    cases known : a.find? e.index key with
    | some found =>
      obtain ⟨i, at_id⟩ := exists_of_find? known
      dsimp only
      rw [at_id]
      constructor
      · intro h
        cases h
        exact ⟨key, rfl, .known known at_id⟩
      · rintro ⟨key', same, met⟩
        cases same
        cases met with
        | known found' at_id' =>
          cases known.symm.trans found'
          cases at_id.symm.trans at_id'
          rfl
        | made absent => cases known.symm.trans absent
    | none =>
      constructor
      · intro h
        obtain ⟨i, created, result⟩ := ok_bind.mp h
        cases result
        exact ⟨key, rfl, .made known created⟩
      · rintro ⟨key', same, met⟩
        cases same
        cases met with
        | known found => cases known.symm.trans found
        | made _ created => exact ok_bind.mpr ⟨_, created, rfl⟩

theorem meet_eq_none_iff :
    meet s row e members a = .ok (none, a') ↔ keyOf? e members row = none ∧ a' = a := by
  unfold meet
  cases present : keyOf? e members row with
  | none =>
    constructor
    · intro h
      cases h
      exact ⟨rfl, rfl⟩
    · rintro ⟨-, rfl⟩
      rfl
  | some key =>
    refine ⟨fun h => ?_, nofun⟩
    dsimp only at h
    split at h
    next known =>
      obtain ⟨i, at_id⟩ := exists_of_find? known
      rw [at_id] at h
      cases h
    next =>
      obtain ⟨i, -, result⟩ := ok_bind.mp h
      cases result

/-! ## Linking -/

/-- The members of an owner are met and linked. One rule for each thing that a step can do. -/
inductive Links (s : Schema) (row : Row) : Members → Part → Owner → Assembly → Assembly → Prop where
  | done {part : Part} {o : Owner} {a : Assembly} : Links s row .nil part o a a
  | skip {m rest : Members} {part : Part} {o : Owner} {a a' : Assembly}
      (idle : Idle row o part m rest) (later : Links s row rest part o a a') :
      Links s row m part o a a'
  | embedded {f : FieldModel} {t : TypeModel} {inner rest : Members} {o : Owner}
      {a a₁ a₂ a' : Assembly} (applies : o.applies f = true)
      (relations : Links s row inner .relations (o.inside f.name t.name) a a₁)
      (embedded : Links s row inner .embedded (o.inside f.name t.name) a₁ a₂)
      (later : Links s row rest .embedded o a₂ a') :
      Links s row (.embedded f t inner rest) .embedded o a a'
  | relation {f : FieldModel} {kind : RelationKind} {child : EntityHead} {inner rest : Members}
      {o : Owner} {key : Key} {id : ObjectId} {type : TypeModel} {a a₁ a₂ a₃ a' : Assembly}
      (applies : o.applies f = true) (present : keyOf? child inner row = some key)
      (met : Meets s row child inner key a id type a₁)
      (relations : Links s row inner .relations ⟨id, type, []⟩ a₁ a₂)
      (embedded : Links s row inner .embedded ⟨id, type, []⟩ a₂ a₃)
      (later : Links s row rest .relations o (a₃.connect o f kind child.index id) a') :
      Links s row (.relation f kind child inner rest) .relations o a a'

/-- Every success of linking is taken apart. -/
theorem links_of_link (h : link s row m part o a = .ok a') : Links s row m part o a a' := by
  induction m, part, o using link_induction row generalizing a a' with
  | done =>
    cases h
    exact .done
  | skip m rest part o idle ih =>
    rw [link_of_idle idle] at h
    exact .skip idle (ih h)
  | embedded f t inner rest o applies inner_ih ih =>
    rw [link_embedded applies] at h
    obtain ⟨a₁, relations, h⟩ := ok_bind.mp h
    obtain ⟨a₂, embedded, later⟩ := ok_bind.mp h
    exact .embedded applies (inner_ih _ _ relations) (inner_ih _ _ embedded) (ih later)
  | relation f kind child inner rest o k applies present inner_ih ih =>
    simp only [link, if_pos applies] at h
    obtain ⟨⟨met, a₁⟩, meeting, run⟩ := ok_bind.mp h
    cases met with
    | none => cases present.symm.trans (meet_eq_none_iff.mp meeting).1
    | some found =>
      obtain ⟨key, present, meets⟩ := meet_eq_some_iff.mp meeting
      obtain ⟨a₂, relations, run⟩ := ok_bind.mp run
      obtain ⟨a₃, embedded, later⟩ := ok_bind.mp run
      exact .relation applies present meets (inner_ih _ _ relations) (inner_ih _ _ embedded) (ih later)

theorem link_of_links (h : Links s row m part o a a') : link s row m part o a = .ok a' := by
  induction h with
  | done => rfl
  | skip idle _ ih => exact (link_of_idle idle).trans ih
  | embedded applies _ _ _ relations embedded later =>
    rw [link_embedded applies]
    exact ok_bind.mpr ⟨_, relations, ok_bind.mpr ⟨_, embedded, later⟩⟩
  | relation applies present met _ _ _ relations embedded later =>
    rw [link_relation applies (meet_eq_some_iff.mpr ⟨_, present, met⟩)]
    exact ok_bind.mpr ⟨_, relations, ok_bind.mpr ⟨_, embedded, later⟩⟩

/-- **Linking is its rules.** -/
theorem link_eq_ok_iff : link s row m part o a = .ok a' ↔ Links s row m part o a a' :=
  ⟨links_of_link, link_of_links⟩

/-! ## Rows -/

/-- A row is added: it has no root key, or the root is met and linked. -/
inductive Adds (s : Schema) (root : Entity) (row : Row) : Assembly → Assembly → Prop where
  | unkeyed {a : Assembly} (absent : keyOf? root.head root.members row = none) :
      Adds s root row a a
  | keyed {key : Key} {id : ObjectId} {type : TypeModel} {a a₁ a₂ a' : Assembly}
      (present : keyOf? root.head root.members row = some key)
      (met : Meets s row root.head root.members key a id type a₁)
      (relations : Links s row root.members .relations ⟨id, type, []⟩ a₁ a₂)
      (embedded : Links s row root.members .embedded ⟨id, type, []⟩ a₂ a') :
      Adds s root row a a'

variable {root : Entity}

/-- **Adding a row is its rules.** -/
theorem addRow_eq_ok_iff : a.addRow s root row = .ok a' ↔ Adds s root row a a' := by
  unfold addRow
  constructor
  · intro h
    obtain ⟨⟨met, a₁⟩, meeting, run⟩ := ok_bind.mp h
    cases met with
    | none =>
      obtain ⟨absent, rfl⟩ := meet_eq_none_iff.mp meeting
      cases run
      exact .unkeyed absent
    | some found =>
      obtain ⟨key, present, meets⟩ := meet_eq_some_iff.mp meeting
      obtain ⟨a₂, relations, embedded⟩ := ok_bind.mp run
      exact .keyed present meets (links_of_link relations) (links_of_link embedded)
  · intro h
    cases h with
    | unkeyed absent => exact ok_bind.mpr ⟨(none, a), meet_eq_none_iff.mpr ⟨absent, rfl⟩, rfl⟩
    | keyed present met relations embedded =>
      refine ok_bind.mpr ⟨(some _, _), meet_eq_some_iff.mpr ⟨_, present, met⟩, ?_⟩
      exact ok_bind.mpr ⟨_, link_of_links relations, link_of_links embedded⟩

/-! ## Growth -/

/-- A new instance is one of its entity under its key, of the type that the row tells. -/
theorem eq_of_create {i : Instance} (h : create s row e members key = .ok i) :
    i.entity = e.index ∧ i.key = key ∧ i.type = typeOf e row := by
  obtain ⟨made, -, result⟩ := ok_bind.mp h
  cases result
  exact ⟨rfl, rfl, rfl⟩

/-- Meeting an entity adds at most its own identity. -/
theorem Meets.identities (h : Meets s row e members key a id type a') :
    ∃ more, a'.identities = a.identities ++ more ∧ ∀ p ∈ more, p = (e.index, key) := by
  cases h with
  | known => exact ⟨[], (List.append_nil _).symm, fun _ hp => absurd hp List.not_mem_nil⟩
  | made absent created =>
    obtain ⟨entity, key_eq, -⟩ := eq_of_create created
    refine ⟨[(e.index, key)], ?_, fun _ hp => List.mem_singleton.mp hp⟩
    rw [identities_add, entity, key_eq]

/-- The instance that is met is one of the entity under the key. -/
theorem Meets.identity (h : Meets s row e members key a id type a') :
    a'.identities[id]? = some (e.index, key) := by
  cases h with
  | known found => exact identity_of_find? found
  | made absent created =>
    obtain ⟨entity, key_eq, -⟩ := eq_of_create created
    have length : a.identities.length = a.instances.length := List.length_map _
    rw [identities_add, entity, key_eq, ← length]
    exact List.getElem?_concat_length

/-- **Linking adds instances of entities below the owner, and no others.** -/
theorem Links.identities (h : Links s row m part o a a') :
    ∃ more, a'.identities = a.identities ++ more ∧
      ∀ p ∈ more, p.1 ∈ m.entities.map (·.1.index) := by
  induction h with
  | done => exact ⟨[], (List.append_nil _).symm, fun _ hp => absurd hp List.not_mem_nil⟩
  | skip idle _ ih =>
    obtain ⟨more, grown, below⟩ := ih
    exact ⟨more, grown, fun p hp => List.map_subset _ idle.entities_subset (below p hp)⟩
  | @embedded f t inner rest _ _ _ _ _ _ _ _ _ relations embedded later =>
    obtain ⟨more₁, grown₁, below₁⟩ := relations
    obtain ⟨more₂, grown₂, below₂⟩ := embedded
    obtain ⟨more₃, grown₃, below₃⟩ := later
    refine ⟨more₁ ++ (more₂ ++ more₃), ?_, fun p hp => ?_⟩
    · rw [grown₃, grown₂, grown₁, List.append_assoc, List.append_assoc]
    · rw [Members.entities, List.map_append, List.mem_append]
      rcases List.mem_append.mp hp with h₁ | hp
      · exact .inl (below₁ p h₁)
      rcases List.mem_append.mp hp with h₂ | h₃
      · exact .inl (below₂ p h₂)
      · exact .inr (below₃ p h₃)
  | @relation f kind child inner rest _ _ _ _ _ _ _ _ _ _ present met _ _ _ relations embedded later =>
    obtain ⟨more₀, grown₀, own⟩ := met.identities
    obtain ⟨more₁, grown₁, below₁⟩ := relations
    obtain ⟨more₂, grown₂, below₂⟩ := embedded
    obtain ⟨more₃, grown₃, below₃⟩ := later
    rw [identities_connect] at grown₃
    refine ⟨more₀ ++ (more₁ ++ (more₂ ++ more₃)), ?_, fun p hp => ?_⟩
    · rw [grown₃, grown₂, grown₁, grown₀, List.append_assoc, List.append_assoc, List.append_assoc]
    · rw [Members.entities, List.map_cons, List.map_append, List.mem_cons, List.mem_append]
      rcases List.mem_append.mp hp with h₀ | hp
      · exact .inl (congrArg Prod.fst (own p h₀))
      rcases List.mem_append.mp hp with h₁ | hp
      · exact .inr (.inl (below₁ p h₁))
      rcases List.mem_append.mp hp with h₂ | h₃
      · exact .inr (.inl (below₂ p h₂))
      · exact .inr (.inr (below₃ p h₃))

/-- Rows keep the instances that are there where they are. -/
theorem Links.identities_prefix (h : Links s row m part o a a') :
    a.identities <+: a'.identities := by
  obtain ⟨more, grown, -⟩ := h.identities
  exact grown ▸ List.prefix_append _ _

theorem Meets.identities_prefix (h : Meets s row e members key a id type a') :
    a.identities <+: a'.identities := by
  obtain ⟨more, grown, -⟩ := h.identities
  exact grown ▸ List.prefix_append _ _

end Assembly

end Orm
