import Orm.Proofs.Assembly.Records

/-!
# `Proofs.Assembly.Run` — what assembling rows logs

What happens in a row depends on the row and on the types of the instances alone, not on what has
been assembled before: the entities of the plan are met from the root down, and each that is met is
joined to its owner after all below it. Assembling rows succeeds, and records the events of the rows
one after the other, as long as the instances that are new can be made.

## Contents
- **Events.** `Members.events`, `Entity.events`.
- **Idle members.** `Idle`, `link_of_idle`, `Idle.events`, `link_induction`.
- **Runs.** `Advances`, `Advances.bind`.
- **New instances.** `Makes`.
- **Meeting.** `meet_records`.
- **Linking.** `Owns`, `Records.join`, `link_records`.
- **Rows.** `addRow_records`, `addRows_records`.
-/

namespace Orm

open Schema Plan Assembly

/-! ## Events -/

/-- What happens in a row when members of an instance are linked. Inside a value object all of them
belong to it. -/
def Plan.Members.events (type : Nat → Key → TypeModel) (row : Row) :
    Members → Part → Nat → Key → Bool → List Event
  | .nil, _, _, _, _ => []
  | .column _ _ rest, part, n, key, inside => rest.events type row part n key inside
  | .embedded f _ inner rest, part, n, key, inside =>
    match part with
    | .relations => rest.events type row .relations n key inside
    | .embedded =>
      (if inside || (type n key).isA f.owner then
        inner.events type row .relations n key true ++ inner.events type row .embedded n key true
      else []) ++ rest.events type row .embedded n key inside
  | .relation f _ child inner rest, part, n, key, inside =>
    match part with
    | .embedded => rest.events type row .embedded n key inside
    | .relations =>
      (if inside || (type n key).isA f.owner then
        match keyOf? child inner row with
        | none => []
        | some k => .met child.index k :: (inner.events type row .relations child.index k false ++
            inner.events type row .embedded child.index k false ++ [.joined n key child.index k])
      else []) ++ rest.events type row .relations n key inside

/-- What happens in a row. -/
def Plan.Entity.events (type : Nat → Key → TypeModel) (row : Row) (root : Entity) : List Event :=
  match keyOf? root.head root.members row with
  | none => []
  | some k => .met root.head.index k :: (root.members.events type row .relations root.head.index k false ++
      root.members.events type row .embedded root.head.index k false)

section

variable {s : Schema} {type : Nat → Key → TypeModel} {row : Row} {f : FieldModel} {t : TypeModel}
  {kind : RelationKind} {child : EntityHead} {inner rest : Members} {n : Nat} {key k : Key}
  {inside : Bool} {o : Owner} {a a' : Assembly} {id : ObjectId} {childType : TypeModel}

theorem Entity.events_of_none {root : Entity} (absent : keyOf? root.head root.members row = none) :
    root.events type row = [] := by
  unfold Entity.events
  rw [absent]

theorem Entity.events_of_some {root : Entity} (present : keyOf? root.head root.members row = some key) :
    root.events type row = [.met root.head.index key] ++
      (root.members.events type row .relations root.head.index key false ++
        root.members.events type row .embedded root.head.index key false) := by
  unfold Entity.events
  rw [present]
  rfl

theorem meet_of_none {e : EntityHead} {members : Members} (absent : keyOf? e members row = none)
    (a : Assembly) : meet s row e members a = .ok (none, a) := by
  unfold meet
  rw [absent]
  rfl

theorem events_embedded (applies : (inside || (type n key).isA f.owner) = true) :
    (Members.embedded f t inner rest).events type row .embedded n key inside =
      inner.events type row .relations n key true ++ (inner.events type row .embedded n key true ++
        rest.events type row .embedded n key inside) :=
  (congrArg (· ++ _) (if_pos applies)).trans (List.append_assoc _ _ _)

theorem events_embedded_of_not (foreign : ¬ (inside || (type n key).isA f.owner) = true) :
    (Members.embedded f t inner rest).events type row .embedded n key inside =
      rest.events type row .embedded n key inside :=
  congrArg (· ++ _) (if_neg foreign)

theorem events_relation (applies : (inside || (type n key).isA f.owner) = true)
    (found : keyOf? child inner row = some k) :
    (Members.relation f kind child inner rest).events type row .relations n key inside =
      [.met child.index k] ++ (inner.events type row .relations child.index k false ++
        (inner.events type row .embedded child.index k false ++ ([.joined n key child.index k] ++
          rest.events type row .relations n key inside))) := by
  refine (congrArg (· ++ _) (if_pos applies)).trans ?_
  rw [found]
  simp only [List.append_assoc, List.cons_append, List.nil_append]

theorem events_relation_of_none (absent : keyOf? child inner row = none) :
    (Members.relation f kind child inner rest).events type row .relations n key inside =
      rest.events type row .relations n key inside := by
  show (if _ then _ else []) ++ _ = _
  rw [absent]
  exact congrArg (· ++ _) (ite_self [])

theorem events_relation_of_not (foreign : ¬ (inside || (type n key).isA f.owner) = true) :
    (Members.relation f kind child inner rest).events type row .relations n key inside =
      rest.events type row .relations n key inside :=
  congrArg (· ++ _) (if_neg foreign)

theorem link_embedded (applies : o.applies f = true) :
    link s row (.embedded f t inner rest) .embedded o a = (do
      let a ← link s row inner .relations (o.inside f.name t.name) a
      let a ← link s row inner .embedded (o.inside f.name t.name) a
      link s row rest .embedded o a) :=
  if_pos applies

theorem link_embedded_of_not (foreign : ¬ o.applies f = true) :
    link s row (.embedded f t inner rest) .embedded o a = link s row rest .embedded o a :=
  if_neg foreign

theorem link_relation (applies : o.applies f = true)
    (met : meet s row child inner a = .ok (some (id, childType), a')) :
    link s row (.relation f kind child inner rest) .relations o a = (do
      let a ← link s row inner .relations ⟨id, childType, []⟩ a'
      let a ← link s row inner .embedded ⟨id, childType, []⟩ a
      link s row rest .relations o (a.connect o f kind child.index id)) := by
  refine (if_pos applies).trans ?_
  rw [met]
  rfl

theorem link_relation_of_none (absent : keyOf? child inner row = none) :
    link s row (.relation f kind child inner rest) .relations o a = link s row rest .relations o a := by
  show (if o.applies f = true then _ else _) = _
  rw [meet_of_none absent]
  exact ite_self _

theorem link_relation_of_not (foreign : ¬ o.applies f = true) :
    link s row (.relation f kind child inner rest) .relations o a = link s row rest .relations o a :=
  if_neg foreign

end

/-! ## Idle members -/

namespace Assembly

/-- Nothing comes of the first member in a part of linking: it is a single value, it is of the other
part, it does not belong to the owner, or it leads nowhere in the row. -/
inductive Idle (row : Row) (o : Owner) : Part → Members → Members → Prop where
  | column {part : Part} {f : FieldModel} {label : String} {rest : Members} :
      Idle row o part (.column f label rest) rest
  | valueLater {f : FieldModel} {t : TypeModel} {inner rest : Members} :
      Idle row o .relations (.embedded f t inner rest) rest
  | relationBefore {f : FieldModel} {kind : RelationKind} {child : EntityHead}
      {inner rest : Members} : Idle row o .embedded (.relation f kind child inner rest) rest
  | foreignValue {f : FieldModel} {t : TypeModel} {inner rest : Members}
      (foreign : ¬ o.applies f = true) : Idle row o .embedded (.embedded f t inner rest) rest
  | foreignRelation {f : FieldModel} {kind : RelationKind} {child : EntityHead}
      {inner rest : Members} (foreign : ¬ o.applies f = true) :
      Idle row o .relations (.relation f kind child inner rest) rest
  | nowhere {f : FieldModel} {kind : RelationKind} {child : EntityHead} {inner rest : Members}
      (absent : keyOf? child inner row = none) :
      Idle row o .relations (.relation f kind child inner rest) rest

section

variable {s : Schema} {type : Nat → Key → TypeModel} {row : Row} {m rest : Members} {part : Part}
  {o : Owner} {a : Assembly}

/-- An idle member is passed over. -/
theorem link_of_idle (idle : Idle row o part m rest) :
    link s row m part o a = link s row rest part o a := by
  cases idle with
  | column => rfl
  | valueLater => rfl
  | relationBefore => rfl
  | foreignValue foreign => exact link_embedded_of_not foreign
  | foreignRelation foreign => exact link_relation_of_not foreign
  | nowhere absent => exact link_relation_of_none absent

/-- What is below an idle member is out of reach, and all else is still to come. -/
theorem Idle.entities_subset (idle : Idle row o part m rest) : rest.entities ⊆ m.entities := by
  cases idle with
  | column => exact List.Subset.refl _
  | valueLater => exact List.subset_append_right _ _
  | foreignValue => exact List.subset_append_right _ _
  | relationBefore => exact List.subset_cons_of_subset _ (List.subset_append_right _ _)
  | foreignRelation => exact List.subset_cons_of_subset _ (List.subset_append_right _ _)
  | nowhere => exact List.subset_cons_of_subset _ (List.subset_append_right _ _)

/-- What comes after an idle member lies where it lay. -/
theorem Idle.sites_subset (idle : Idle row o part m rest) (chain : List (FieldModel × TypeModel)) :
    rest.sites chain ⊆ m.sites chain := by
  cases idle with
  | column => exact List.Subset.refl _
  | valueLater | foreignValue => exact List.subset_append_right _ _
  | relationBefore | foreignRelation | nowhere => exact List.subset_cons_self _ _

/-- Nothing happens at an idle member, if what belongs to the owner can be told from its instance. -/
theorem Idle.events (idle : Idle row o part m rest) {n : Nat} {key : Key} {inside : Bool}
    (gate : ∀ f, o.applies f = (inside || (type n key).isA f.owner)) :
    m.events type row part n key inside = rest.events type row part n key inside := by
  cases idle with
  | column | valueLater | relationBefore => rfl
  | foreignValue foreign => exact events_embedded_of_not (gate _ ▸ foreign)
  | foreignRelation foreign => exact events_relation_of_not (gate _ ▸ foreign)
  | nowhere absent => exact events_relation_of_none absent

/-- **Members are linked one after the other.** Either nothing comes of the first, or it is a value object
of the owner, or a relation of the owner that leads to a key. What is inside is linked for another owner,
so a statement about it is one for all owners. -/
theorem link_induction (row : Row) {motive : Members → Part → Owner → Prop}
    (done : ∀ part o, motive .nil part o)
    (skip : ∀ m rest part o, Idle row o part m rest → motive rest part o → motive m part o)
    (embedded : ∀ f t inner rest o, o.applies f = true → (∀ part o, motive inner part o) →
      motive rest .embedded o → motive (.embedded f t inner rest) .embedded o)
    (relation : ∀ f kind child inner rest o k, o.applies f = true → keyOf? child inner row = some k →
      (∀ part o, motive inner part o) → motive rest .relations o →
      motive (.relation f kind child inner rest) .relations o)
    (m : Members) (part : Part) (o : Owner) : motive m part o := by
  induction m generalizing part o with
  | nil => exact done part o
  | column f label rest ih => exact skip _ _ _ _ .column (ih part o)
  | embedded f t inner rest inner_ih ih =>
    cases part with
    | relations => exact skip _ _ _ _ .valueLater (ih _ o)
    | embedded =>
      by_cases applies : o.applies f = true
      · exact embedded f t inner rest o applies inner_ih (ih _ o)
      · exact skip _ _ _ _ (.foreignValue applies) (ih _ o)
  | relation f kind child inner rest inner_ih ih =>
    cases part with
    | embedded => exact skip _ _ _ _ .relationBefore (ih _ o)
    | relations =>
      by_cases applies : o.applies f = true
      case neg => exact skip _ _ _ _ (.foreignRelation applies) (ih _ o)
      cases present : keyOf? child inner row with
      | none => exact skip _ _ _ _ (.nowhere present) (ih _ o)
      | some k => exact relation f kind child inner rest o k applies present inner_ih (ih _ o)

end

end Assembly

/-! ## Runs -/

/-- A run that goes on from an assembly succeeds and records some events more. -/
def Advances (s : Schema) (type : Nat → Key → TypeModel) (es : List Entity) (log events : List Event)
    (a : Assembly) (run : Except Error Assembly) : Prop :=
  ∃ a', run = .ok a' ∧ Records s type es (log ++ events) a' ∧ a.identities <+: a'.identities

namespace Advances

variable {s : Schema} {type : Nat → Key → TypeModel} {es : List Entity} {log events more : List Event}
  {a a' : Assembly} {run : Except Error Assembly}

/-- Where nothing happens, all stays as it is. -/
theorem done (h : Records s type es log a) : Advances s type es log [] a (.ok a) := by
  refine ⟨a, rfl, ?_, List.prefix_rfl⟩
  rw [List.append_nil]
  exact h

/-- A run from a later assembly is one from an earlier assembly. -/
theorem after (h : Advances s type es (log ++ events) more a' run)
    (grown : a.identities <+: a'.identities) : Advances s type es log (events ++ more) a run := by
  obtain ⟨a₂, ran, records, later⟩ := h
  rw [List.append_assoc] at records
  exact ⟨a₂, ran, records, grown.trans later⟩

/-- **A run goes on where the one before it ends.** -/
theorem bind {next : Assembly → Except Error Assembly} (h : Advances s type es log events a run)
    (on : ∀ a', Records s type es (log ++ events) a' → a.identities <+: a'.identities →
      Advances s type es (log ++ events) more a' (next a')) :
    Advances s type es log (events ++ more) a (run >>= next) := by
  obtain ⟨a', rfl, records, grown⟩ := h
  exact (on a' records grown).after grown

end Advances

/-! ## New instances -/

/-- The instances that are new among some events can be made from a row, and are of their types. -/
def Makes (s : Schema) (type : Nat → Key → TypeModel) (es : List Entity) (row : Row)
    (before events : List Event) : Prop :=
  ∀ e ∈ es, ∀ key, .met e.head.index key ∈ events → .met e.head.index key ∉ before →
    typeOf e.head row = type e.head.index key ∧
      e.members.readable s row e.head.path (fun f => (typeOf e.head row).isA f.owner) = true

section

variable {s : Schema} {type : Nat → Key → TypeModel} {root : Entity} {es : List Entity} {row : Row}
  {before log : List Event} {a : Assembly}

/-- What is asked of all that is met among some events is asked of each part of them. -/
theorem forall_met_append {P : Entity → Key → Prop} {first rest : List Event} :
    (∀ e ∈ es, ∀ key, .met e.head.index key ∈ first ++ rest → P e key) ↔
      (∀ e ∈ es, ∀ key, .met e.head.index key ∈ first → P e key) ∧
        ∀ e ∈ es, ∀ key, .met e.head.index key ∈ rest → P e key := by
  constructor
  · exact fun h => ⟨fun e he key met => h e he key (List.mem_append_left _ met),
      fun e he key met => h e he key (List.mem_append_right _ met)⟩
  · rintro ⟨here, later⟩ e he key met
    exact (List.mem_append.mp met).elim (here e he key) (later e he key)

theorem makes_append {first rest : List Event} :
    Makes s type es row before (first ++ rest) ↔
      Makes s type es row before first ∧ Makes s type es row before rest :=
  forall_met_append

/-! ## Meeting -/

/-- **An entity that is in a row is met under its key.** -/
theorem meet_records (named : s.NamesFields) (wired : Wired s root es) {e : Entity} (he : e ∈ es)
    {key : Key} (found : keyOf? e.head e.members row = some key)
    (makes : Makes s type es row before [.met e.head.index key]) (sub : before ⊆ log)
    (h : Records s type es log a) :
    ∃ id a', meet s row e.head e.members a = .ok (some (id, type e.head.index key), a') ∧
      Records s type es (log ++ [.met e.head.index key]) a' ∧
      a'.identities[id]? = some (e.head.index, key) ∧ a.identities <+: a'.identities := by
  unfold meet
  rw [found]
  dsimp only
  cases known : a.find? e.head.index key with
  | some id =>
    have identity := identity_of_find? known
    obtain ⟨i, at_id, entity, key_eq⟩ := instance_of_identity identity
    have type_eq := (h.sound i (List.mem_of_getElem? at_id)).type_eq
    rw [entity, key_eq] at type_eq
    refine ⟨id, a, ?_, h.again ?_, identity, List.prefix_rfl⟩
    · dsimp only
      rw [at_id, Option.map_some, type_eq]
      rfl
    · exact mem_identitiesIn.mp (h.mem_identities.mp (List.mem_of_getElem? identity))
  | none =>
    have new : .met e.head.index key ∉ before := fun old =>
      find?_eq_none_iff.mp known (h.mem_identities.mpr (mem_identitiesIn.mpr (sub old)))
    obtain ⟨type_eq, readable⟩ := makes e he key List.mem_cons_self new
    obtain ⟨i, made⟩ := create_ok key readable
    have created := created_of_create named (wired.walked e he) made
    have described : s.Describes i.type :=
      created.type ▸ (wired.walked e he).describes_typeOf row
    have of_type : i.type = type e.head.index key := created.type.trans type_eq
    have who : (a.add i).identities = a.identities ++ [(e.head.index, key)] := by
      rw [identities_add, created.entity, created.key]
    refine ⟨a.instances.length, a.add i, ?_, ?_, ?_, ?_⟩
    · exact ok_bind.mpr ⟨i, made, by rw [of_type]; rfl⟩
    · exact h.add wired he created described of_type known
    · have length : a.identities.length = a.instances.length := List.length_map _
      rw [who, ← length]
      exact List.getElem?_concat_length
    · exact who ▸ List.prefix_append _ _

/-! ## Linking -/

/-- The value objects of a chain, if there are any, belong to objects of a type. -/
def Gated (t : TypeModel) (chain : List (FieldModel × TypeModel)) : Prop :=
  ∀ p, chain.head? = some p → t.isA p.1.owner = true

namespace Gated

variable {t : TypeModel} {chain : List (FieldModel × TypeModel)} {f : FieldModel}

theorem nil (t : TypeModel) : Gated t [] :=
  fun _ none => absurd none.symm (Option.some_ne_none _)

theorem concat (h : Gated t chain) (applies : (!chain.isEmpty || t.isA f.owner) = true)
    (u : TypeModel) : Gated t (chain ++ [(f, u)]) := by
  intro p hp
  cases chain with
  | nil =>
    rw [← Option.some.inj hp]
    exact applies
  | cons first rest => exact h p hp

/-- A relation in a chain belongs to objects of a type together with what leads on to it. -/
theorem applies_eq (h : Gated t chain) {x : Site} {more : List (FieldModel × TypeModel)}
    (lies : x.chain = chain ++ more) (next : (more.head?.map (·.1)).getD x.field = f) :
    x.applies t = (!chain.isEmpty || t.isA f.owner) := by
  unfold Site.applies Site.gate
  rw [lies]
  cases chain with
  | nil =>
    rw [List.nil_append, next]
    rfl
  | cons first rest => exact h first rfl

end Gated

/-- An owner stands for the instance of an entity with a key, inside some value objects of it that
belong to its type. -/
structure Owns (type : Nat → Key → TypeModel) (e : Entity) (key : Key)
    (chain : List (FieldModel × TypeModel)) (o : Owner) (a : Assembly) : Prop where
  type_eq : o.type = type e.head.index key
  chain_eq : o.chain = chain.map fun p => (p.1.name, p.2.name)
  gated : Gated o.type chain
  identity : a.identities[o.id]? = some (e.head.index, key)

namespace Owns

variable {e : Entity} {key : Key} {chain : List (FieldModel × TypeModel)} {o : Owner}
  {f : FieldModel}

theorem direct {id : ObjectId} (identity : a.identities[id]? = some (e.head.index, key)) :
    Owns type e key [] ⟨id, type e.head.index key, []⟩ a :=
  ⟨rfl, rfl, .nil _, identity⟩

/-- An instance keeps its position. -/
theorem grow {a' : Assembly} (h : Owns type e key chain o a) (sub : a.identities <+: a'.identities) :
    Owns type e key chain o a' := by
  refine ⟨h.type_eq, h.chain_eq, h.gated, ?_⟩
  obtain ⟨more, same⟩ := sub
  rw [← same, List.getElem?_append_left (List.getElem?_eq_some_iff.mp h.identity).1, h.identity]

theorem applies_eq (h : Owns type e key chain o a) :
    o.applies f = (!chain.isEmpty || (type e.head.index key).isA f.owner) := by
  unfold Owner.applies
  rw [h.type_eq, h.chain_eq, List.isEmpty_map]

/-- A value object that belongs to an owner has its relations. -/
theorem inside (h : Owns type e key chain o a) (applies : o.applies f = true) (t : TypeModel) :
    Owns type e key (chain ++ [(f, t)]) (o.inside f.name t.name) a := by
  refine ⟨h.type_eq, ?_, h.gated.concat ?_ t, h.identity⟩
  · show o.chain ++ [(f.name, t.name)] = _
    rw [h.chain_eq, List.map_append, List.map_singleton]
  · rw [h.type_eq, ← h.applies_eq]
    exact applies

/-- A relation that belongs to an owner is one of the type of its instance. -/
theorem site_applies (h : Owns type e key chain o a) (applies : o.applies f = true)
    (kind : RelationKind) (child : EntityHead) (inner : Members) :
    (Site.mk chain f kind child inner).applies (type e.head.index key) = true := by
  rw [← h.type_eq, h.gated.applies_eq (List.append_nil chain).symm rfl, h.type_eq, ← h.applies_eq]
  exact applies

end Owns

/-- A child that has been met is joined to its owner. -/
theorem Records.join (h : Records s type es log a) (wired : Wired s root es) {e : Entity} (he : e ∈ es)
    {chain : List (FieldModel × TypeModel)} {f : FieldModel} {kind : RelationKind} {child : EntityHead}
    {inner : Members} (hx : ⟨chain, f, kind, child, inner⟩ ∈ e.sites) {key k : Key} {o c : Owner}
    (owns : Owns type e key chain o a) (met : Owns type ⟨child, inner⟩ k [] c a)
    (apart : ∀ y ∈ e.sites, y.applies (type e.head.index key) = true →
      ⟨chain, f, kind, child, inner⟩ ≠ y →
        Apart (Site.mk chain f kind child inner).path y.path) :
    Advances s type es log [.joined e.head.index key child.index k] a
      (.ok (a.connect o f kind child.index c.id)) := by
  have along : o.chain.map (·.1) = chain.map (·.1.name) := by
    rw [owns.chain_eq]
    exact List.map_map
  have kept : a.identities <+: (a.connect o f kind child.index c.id).identities :=
    identities_connect a o f kind child.index c.id ▸ List.prefix_rfl
  exact ⟨_, rfl, h.connect wired he hx along apart owns.identity met.identity, kept⟩

/-- **Linking an instance logs what happens.** -/
theorem link_records (named : s.NamesFields) (wired : Wired s root es) {m : Members} {part : Part}
    {e : Entity} (he : e ∈ es) {chain : List (FieldModel × TypeModel)}
    (sites : ∀ x ∈ m.sites chain, x ∈ e.sites) {key : Key} {o : Owner}
    (owns : Owns type e key chain o a) (sub : before ⊆ log)
    (makes : Makes s type es row before
      (m.events type row part e.head.index key (!chain.isEmpty)))
    (h : Records s type es log a) :
    Advances s type es log (m.events type row part e.head.index key (!chain.isEmpty)) a
      (link s row m part o a) := by
  have later {log events : List Event} (sub : before ⊆ log) : before ⊆ log ++ events :=
    List.subset_append_of_subset_left _ sub
  induction m, part, o using link_induction row generalizing e chain key log a with
  | done => exact .done h
  | skip m rest part o idle ih =>
    rw [idle.events fun _ => owns.applies_eq] at makes ⊢
    rw [link_of_idle idle]
    exact ih he (fun x hx => sites x (idle.sites_subset chain hx)) owns sub makes h
  | embedded f t inner rest o applies inner_ih ih =>
    have within : ∀ x ∈ inner.sites (chain ++ [(f, t)]), x ∈ e.sites := fun x hx =>
      sites x (List.mem_append_left _ hx)
    have beside : ∀ x ∈ rest.sites chain, x ∈ e.sites := fun x hx =>
      sites x (List.mem_append_right _ hx)
    have nonempty : (!(chain ++ [(f, t)]).isEmpty) = true := by simp
    rw [events_embedded (owns.applies_eq ▸ applies)] at makes ⊢
    rw [link_embedded applies]
    rw [← nonempty] at makes ⊢
    simp only [makes_append] at makes
    obtain ⟨makes₁, makes₂, makes₃⟩ := makes
    -- the value object belongs to the instance, so what is inside is linked to it
    have owned := owns.inside applies t
    refine (inner_ih .relations _ he within owned sub makes₁ h).bind fun a₁ records₁ grown₁ => ?_
    refine (inner_ih .embedded _ he within (owned.grow grown₁) (later sub) makes₂ records₁).bind
      fun a₂ records₂ grown₂ => ?_
    exact ih he beside (owns.grow (grown₁.trans grown₂)) (later (later sub)) makes₃ records₂
  | relation f kind child inner rest o k applies present inner_ih ih =>
    have hx := sites ⟨chain, f, kind, child, inner⟩ List.mem_cons_self
    have beside : ∀ x ∈ rest.sites chain, x ∈ e.sites := fun x hx =>
      sites x (List.mem_cons_of_mem _ hx)
    have child_mem : ⟨child, inner⟩ ∈ es := wired.closed e he _ hx
    rw [events_relation (owns.applies_eq ▸ applies) present] at makes ⊢
    simp only [makes_append] at makes
    obtain ⟨makes₁, makes₂, makes₃, -, makes₄⟩ := makes
    obtain ⟨id, a₁, met, records₁, identity, grown₁⟩ :=
      meet_records named wired child_mem present makes₁ sub h
    rw [link_relation applies met]
    refine Advances.after ?_ grown₁
    -- the child is linked as an instance of its own, outside all value objects
    have direct : Owns type ⟨child, inner⟩ k [] ⟨id, type child.index k, []⟩ a₁ := Owns.direct identity
    refine (inner_ih .relations _ child_mem (fun _ hy => hy) direct (later sub) makes₂ records₁).bind
      fun a₂ records₂ grown₂ => ?_
    refine (inner_ih .embedded _ child_mem (fun _ hy => hy) (direct.grow grown₂) (later (later sub))
      makes₃ records₂).bind fun a₃ records₃ grown₃ => ?_
    -- and then joined to its owner, which is where it was
    have owns₃ := owns.grow (grown₁.trans (grown₂.trans grown₃))
    have described := records₃.describes owns₃.identity
    have joins := records₃.join wired he hx owns₃ (direct.grow (grown₂.trans grown₃)) fun y hy own other =>
      (wired.walked e he).apart named described hx hy (owns.site_applies applies kind child inner) own other
    exact joins.bind fun a₄ records₄ grown₄ =>
      ih he beside (owns₃.grow grown₄) (later (later (later (later sub)))) makes₄ records₄

/-! ## Rows -/

/-- **A row adds its events.** -/
theorem addRow_records (named : s.NamesFields) (wired : Wired s root es)
    (makes : Makes s type es row log (root.events type row)) (h : Records s type es log a) :
    Advances s type es log (root.events type row) a (a.addRow s root row) := by
  unfold addRow
  cases found : keyOf? root.head root.members row with
  | none =>
    rw [Entity.events_of_none found, meet_of_none found]
    exact .done h
  | some key =>
    rw [Entity.events_of_some found] at makes ⊢
    simp only [makes_append] at makes
    obtain ⟨makes₁, makes₂, makes₃⟩ := makes
    obtain ⟨id, a₁, met, records₁, identity, grown₁⟩ :=
      meet_records named wired wired.root_mem found makes₁ (List.Subset.refl log) h
    rw [met]
    refine Advances.after ?_ grown₁
    have direct : Owns type root key [] ⟨id, type root.head.index key, []⟩ a₁ := Owns.direct identity
    have linked := link_records named wired wired.root_mem (fun _ hx => hx) direct
      (List.subset_append_left _ _) makes₂ records₁
    refine linked.bind fun a₂ records₂ grown₂ => ?_
    exact link_records named wired wired.root_mem (fun _ hx => hx) (direct.grow grown₂)
      (List.subset_append_of_subset_left _ (List.subset_append_left _ _)) makes₃ records₂

/-- **Rows add their events one after the other.** -/
theorem addRows_records (named : s.NamesFields) (wired : Wired s root es) {rows : List Row}
    (makes : ∀ before row after, rows = before ++ row :: after →
      Makes s type es row (log ++ before.flatMap (root.events type)) (root.events type row))
    (h : Records s type es log a) :
    Advances s type es log (rows.flatMap (root.events type)) a (addRows s root a (rows.map .ok)) := by
  induction rows generalizing log a with
  | nil => exact .done h
  | cons row rest ih =>
    have first := makes [] row rest rfl
    rw [List.flatMap_nil, List.append_nil] at first
    rw [List.flatMap_cons]
    refine (addRow_records named wired first h).bind fun a₁ records _ => ih ?_ records
    -- what happens in the first row is behind the others
    intro before row' after split
    have later := makes (row :: before) row' after (congrArg _ split)
    rwa [List.flatMap_cons, ← List.append_assoc] at later

end

end Orm
