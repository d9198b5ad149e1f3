import Orm.Proofs.Assembly.Union

/-!
# `Proofs.Assembly.Blocks` — rows assembled behind other rows

Rows that reach nothing of an assembly do the same behind it as they do alone, be it that they are
assembled or that one of them does not fit. So a block of rows can be taken out of all rows.

The two runs go in step. What has to be known of the state for this is little: which identities have
been met, and that types belong to identities. The events of a row are told by the types, and every
identity among them is new to the assembly in front.

## Contents
- **Knowledge.** `Knows`, `Knows.start`, `Knows.again`, `Knows.add`, `Knows.connect`, `Knows.union`.
- **Runs in step.** `InStep`, `InStep.bind`.
- **Meeting and linking.** `Admits`, `meet_inStep`, `link_inStep`.
- **Rows.** `addRow_inStep`, `addRows_inStep`.
-/

namespace Orm

open Schema Plan

namespace Assembly

/-! ## Knowledge -/

/-- An assembly has the instances that a log has met, each of the type of its identity. -/
structure Knows (type : Nat → Key → TypeModel) (log : List Event) (b : Assembly) : Prop where
  identities : ∀ p, p ∈ b.identities ↔ p ∈ identitiesIn log
  types : ∀ i ∈ b.instances, i.type = type i.entity i.key

namespace Knows

variable {type : Nat → Key → TypeModel} {log log' : List Event} {a b : Assembly} {c n : Nat}
  {key ownerKey : Key} {i : Instance} {o : Owner} {f : FieldModel} {kind : RelationKind}
  {child : ObjectId}

theorem start (type : Nat → Key → TypeModel) : Knows type [] {} :=
  ⟨fun _ => Iff.rfl, fun _ h => absurd h List.not_mem_nil⟩

/-- Meeting a known identity again tells nothing new. -/
theorem again (h : Knows type log b) (known : (c, key) ∈ b.identities) :
    Knows type (log ++ [.met c key]) b := by
  refine ⟨fun p => ?_, h.types⟩
  have grown : identitiesIn (log ++ [.met c key]) = identitiesIn log ++ [(c, key)] :=
    identitiesIn_append _ _
  rw [grown, List.mem_append, List.mem_singleton, ← h.identities p]
  exact (or_iff_left_of_imp fun same => same ▸ known).symm

theorem add (h : Knows type log b) (entity : i.entity = c) (key_eq : i.key = key)
    (type_eq : i.type = type c key) : Knows type (log ++ [.met c key]) (b.add i) := by
  have grown : identitiesIn (log ++ [.met c key]) = identitiesIn log ++ [(c, key)] :=
    identitiesIn_append _ _
  constructor
  case identities =>
    intro p
    rw [identities_add, entity, key_eq, grown, List.mem_append, List.mem_append, h.identities p]
  case types =>
    intro j hj
    rcases List.mem_append.mp hj with old | new
    · exact h.types j old
    · rw [List.mem_singleton.mp new, type_eq, entity, key_eq]

/-- Linking changes neither identities nor types. -/
theorem connect (h : Knows type log b) (o : Owner) (f : FieldModel) (kind : RelationKind)
    (child : ObjectId) :
    Knows type (log ++ [.joined n ownerKey c key]) (b.connect o f kind c child) := by
  have same : identitiesIn (log ++ [.joined n ownerKey c key]) = identitiesIn log := by
    rw [identitiesIn_append]
    exact List.append_nil _
  constructor
  case identities =>
    intro p
    rw [identities_connect, same]
    exact h.identities p
  case types =>
    intro i hi
    by_cases present : (⟨o.id, c, child⟩ : Link) ∈ b.links
    · rw [connect_of_mem present] at hi
      exact h.types i hi
    · rw [connect_of_not_mem present] at hi
      obtain ⟨at_, j, at_j, rfl⟩ := mem_instances_modify hi
      have type_eq := h.types j (List.mem_of_getElem? at_j)
      split <;> exact type_eq

/-- Two assemblies in one know what both know. -/
theorem union (ha : Knows type log a) (hb : Knows type log' b) :
    Knows type (log ++ log') (a.union b) := by
  constructor
  case identities =>
    intro p
    rw [identities_union, identitiesIn_append, List.mem_append, List.mem_append, ha.identities p,
      hb.identities p]
  case types =>
    intro i hi
    rcases List.mem_append.mp hi with first | second
    · exact ha.types i first
    · obtain ⟨j, hj, rfl⟩ := List.mem_map.mp second
      exact hb.types j hj

end Knows

/-! ## Runs in step -/

/-- Two runs in step: the second does behind an assembly what the first does alone, and where the
first succeeds, it has added some events to what is known. -/
def InStep (type : Nat → Key → TypeModel) (a : Assembly) (log : List Event)
    (alone behind : Except Error Assembly) : Prop :=
  behind = alone.map a.union ∧ ∀ b, alone = .ok b → Knows type log b

section

variable {s : Schema} {type : Nat → Key → TypeModel} {es : List Entity} {row : Row}
  {log log' before events : List Event} {a b : Assembly} {alone behind : Except Error Assembly}

theorem InStep.done (knows : Knows type log b) : InStep type a log (.ok b) (.ok (a.union b)) := by
  refine ⟨rfl, fun b' same => ?_⟩
  cases same
  exact knows

/-- Runs that fail alike are in step. -/
theorem InStep.failed (error : Error) : InStep type a log (.error error) (.error error) := by
  refine ⟨rfl, fun b same => ?_⟩
  cases same

/-- **Runs stay in step where they go on in step.** -/
theorem InStep.bind {next next' : Assembly → Except Error Assembly}
    (h : InStep type a log alone behind)
    (on : ∀ b, Knows type log b → InStep type a log' (next b) (next' (a.union b))) :
    InStep type a log' (alone >>= next) (behind >>= next') := by
  obtain ⟨rfl, knows⟩ := h
  cases alone with
  | error e => exact .failed e
  | ok b => exact on b (knows b rfl)

/-! ## Meeting and linking -/

/-- What the events of a row ask for: an identity that is met is not in the assembly in front, and the
row tells its type if it has not been met before. -/
def Admits (type : Nat → Key → TypeModel) (es : List Entity) (row : Row) (a : Assembly)
    (before events : List Event) : Prop :=
  ∀ e ∈ es, ∀ key, .met e.head.index key ∈ events →
    (e.head.index, key) ∉ a.identities ∧
      (.met e.head.index key ∉ before → typeOf e.head row = type e.head.index key)

theorem admits_append {first rest : List Event} :
    Admits type es row a before (first ++ rest) ↔
      Admits type es row a before first ∧ Admits type es row a before rest :=
  forall_met_append

/-- **An entity is met behind an assembly as it is met alone.** Either it cannot be made in both, or it
is the same instance, moved. -/
theorem meet_inStep {e : Entity} (he : e ∈ es) {key : Key}
    (found : keyOf? e.head e.members row = some key)
    (admits : Admits type es row a before [.met e.head.index key]) (sub : before ⊆ log)
    (knows : Knows type log b) :
    (∃ error, meet s row e.head e.members b = .error error ∧
      meet s row e.head e.members (a.union b) = .error error) ∨
    ∃ id b', meet s row e.head e.members b = .ok (some (id, type e.head.index key), b') ∧
      meet s row e.head e.members (a.union b) =
        .ok (some (a.instances.length + id, type e.head.index key), a.union b') ∧
      Knows type (log ++ [.met e.head.index key]) b' := by
  obtain ⟨absent, tells⟩ := admits e he key List.mem_cons_self
  unfold meet
  rw [found]
  dsimp only
  rw [find?_union absent]
  -- Whether the instance is there is up to the second assembly, since it is not in the one in front.
  cases known : b.find? e.head.index key with
  | some id =>
    have identity := identity_of_find? known
    obtain ⟨i, at_id, entity, key_eq⟩ := instance_of_identity identity
    have type_eq := knows.types i (List.mem_of_getElem? at_id)
    rw [entity, key_eq] at type_eq
    refine .inr ⟨id, b, ?_, ?_, knows.again (List.mem_of_getElem? identity)⟩
    · dsimp only
      rw [at_id, Option.map_some, type_eq]
      rfl
    · dsimp only [Option.map_some]
      rw [getElem?_union, at_id, ← type_eq]
      rfl
  | none =>
    -- What is not in the assembly has not been met, so this row is the one to tell the type.
    have new : .met e.head.index key ∉ before := fun old =>
      find?_eq_none_iff.mp known ((knows.identities _).mpr (mem_identitiesIn.mpr (sub old)))
    dsimp only [Option.map_none]
    cases made : create s row e.head e.members key with
    | error error => exact .inl ⟨error, rfl, rfl⟩
    | ok i =>
      obtain ⟨entity, key_eq, told⟩ := eq_of_create made
      have type_eq : i.type = type e.head.index key := told.trans (tells new)
      have length : (a.union b).instances.length = a.instances.length + b.instances.length := by
        show (a.instances ++ b.instances.map _).length = _
        rw [List.length_append, List.length_map]
      refine .inr ⟨b.instances.length, b.add i, ?_, ?_, knows.add entity key_eq type_eq⟩
      · rw [← type_eq]
        rfl
      · rw [← type_eq, ← add_union a b (targets_of_create made), ← length]
        rfl

theorem link_relation_error {f : FieldModel} {kind : RelationKind} {child : EntityHead}
    {inner rest : Members} {o : Owner} {error : Error} (applies : o.applies f = true)
    (failed : meet s row child inner b = .error error) :
    link s row (.relation f kind child inner rest) .relations o b = .error error := by
  refine (if_pos applies).trans ?_
  rw [failed]
  rfl

theorem applies_eq_of_type {o : Owner} {n : Nat} {key : Key} (type_eq : o.type = type n key)
    (f : FieldModel) : o.applies f = (!o.chain.isEmpty || (type n key).isA f.owner) := by
  unfold Owner.applies
  rw [type_eq]

/-- What is idle for an owner is idle for it wherever it has moved to. -/
theorem Idle.shift {o : Owner} {part : Part} {m rest : Members} (idle : Idle row o part m rest)
    (k : Nat) : Idle row (o.shift k) part m rest := by
  cases idle with
  | column => exact .column
  | valueLater => exact .valueLater
  | relationBefore => exact .relationBefore
  | foreignValue foreign => exact .foreignValue foreign
  | foreignRelation foreign => exact .foreignRelation foreign
  | nowhere absent => exact .nowhere absent

/-- **Members are linked behind an assembly as they are linked alone.** -/
theorem link_inStep (linked : ∀ l ∈ a.links, l.parent < a.identities.length) {m : Members}
    {part : Part} {n : Nat} {key : Key} {o : Owner}
    (below : ∀ c ∈ m.entities, (⟨c.1, c.2⟩ : Entity) ∈ es) (type_eq : o.type = type n key)
    (sub : before ⊆ log)
    (admits : Admits type es row a before (m.events type row part n key (!o.chain.isEmpty)))
    (knows : Knows type log b) :
    InStep type a (log ++ m.events type row part n key (!o.chain.isEmpty)) (link s row m part o b)
      (link s row m part (o.shift a.instances.length) (a.union b)) := by
  have later {log events : List Event} (sub : before ⊆ log) : before ⊆ log ++ events :=
    List.subset_append_of_subset_left _ sub
  -- Value objects and children are linked for owners of their own. Each case splits the log as the
  -- events of the row do.
  induction m, part, o using link_induction row generalizing n key log b with
  | done =>
    rw [Members.events, List.append_nil]
    exact .done knows
  | skip m rest part o idle ih =>
    rw [idle.events (applies_eq_of_type type_eq)] at admits ⊢
    rw [link_of_idle idle, link_of_idle (idle.shift a.instances.length)]
    exact ih (fun c hc => below c (idle.entities_subset hc)) type_eq sub admits knows
  | embedded f t inner rest o applies inner_ih ih =>
    have inside : ∀ c ∈ inner.entities, (⟨c.1, c.2⟩ : Entity) ∈ es := fun c hc =>
      below c (List.mem_append_left _ hc)
    have beside : ∀ c ∈ rest.entities, (⟨c.1, c.2⟩ : Entity) ∈ es := fun c hc =>
      below c (List.mem_append_right _ hc)
    have moved : (o.shift a.instances.length).applies f = true := applies
    have nonempty : (!(o.inside f.name t.name).chain.isEmpty) = true := by simp [Owner.inside]
    rw [events_embedded (applies_eq_of_type type_eq f ▸ applies)] at admits ⊢
    rw [link_embedded applies, link_embedded moved]
    simp only [admits_append] at admits
    rw [← nonempty] at admits ⊢
    obtain ⟨admits₁, admits₂, admits₃⟩ := admits
    rw [← List.append_assoc, ← List.append_assoc]
    have inner_type : (o.inside f.name t.name).type = type n key := type_eq
    refine (inner_ih _ _ inside inner_type sub admits₁ knows).bind fun b₁ knows₁ => ?_
    refine (inner_ih _ _ inside inner_type (later sub) admits₂ knows₁).bind fun b₂ knows₂ => ?_
    exact ih beside type_eq (later (later sub)) admits₃ knows₂
  | relation f kind child inner rest o k applies present inner_ih ih =>
    have inside : ∀ c ∈ inner.entities, (⟨c.1, c.2⟩ : Entity) ∈ es := fun c hc =>
      below c (List.mem_cons_of_mem _ (List.mem_append_left _ hc))
    have beside : ∀ c ∈ rest.entities, (⟨c.1, c.2⟩ : Entity) ∈ es := fun c hc =>
      below c (List.mem_cons_of_mem _ (List.mem_append_right _ hc))
    have child_mem : (⟨child, inner⟩ : Entity) ∈ es := below (child, inner) List.mem_cons_self
    have moved : (o.shift a.instances.length).applies f = true := applies
    rw [events_relation (applies_eq_of_type type_eq f ▸ applies) present] at admits ⊢
    simp only [admits_append] at admits
    obtain ⟨admits₁, admits₂, admits₃, -, admits₄⟩ := admits
    rcases meet_inStep (s := s) child_mem present admits₁ sub knows with
      ⟨error, alone, behind⟩ | ⟨id, b₁, alone, behind, knows₁⟩
    · rw [link_relation_error applies alone, link_relation_error moved behind]
      exact .failed error
    rw [link_relation applies alone, link_relation moved behind]
    simp only [← List.append_assoc]
    have child_type : (Owner.mk id (type child.index k) []).type = type child.index k := rfl
    refine (inner_ih _ _ inside child_type (later sub) admits₂ knows₁).bind fun b₂ knows₂ => ?_
    refine (inner_ih _ _ inside child_type (later (later sub)) admits₃ knows₂).bind fun b₃ knows₃ => ?_
    -- the child is linked to its owner, both where they have moved to
    show InStep type a _ _ (link s row rest .relations _ ((a.union b₃).connect _ f kind _ _))
    rw [connect_union linked b₃]
    exact ih beside type_eq (later (later (later (later sub)))) admits₄ (knows₃.connect o f kind id)

/-! ## Rows -/

variable {root : Entity}

/-- **A row is assembled behind an assembly as it is alone.** -/
theorem addRow_inStep (wired : Wired s root es)
    (linked : ∀ l ∈ a.links, l.parent < a.identities.length)
    (admits : Admits type es row a log (root.events type row)) (knows : Knows type log b) :
    InStep type a (log ++ root.events type row) (b.addRow s root row)
      ((a.union b).addRow s root row) := by
  have below : ∀ c ∈ root.members.entities, (⟨c.1, c.2⟩ : Entity) ∈ es := by
    intro c hc
    rw [wired.all]
    exact List.mem_cons_of_mem _ (List.mem_map.mpr ⟨c, hc, rfl⟩)
  unfold addRow
  cases found : keyOf? root.head root.members row with
  | none =>
    rw [Entity.events_of_none found, List.append_nil, meet_of_none found, meet_of_none found]
    exact .done knows
  | some key =>
    rw [Entity.events_of_some found] at admits ⊢
    simp only [admits_append] at admits
    obtain ⟨admits₁, admits₂, admits₃⟩ := admits
    rcases meet_inStep (s := s) wired.root_mem found admits₁ (List.Subset.refl log) knows with
      ⟨error, alone, behind⟩ | ⟨id, b₁, alone, behind, knows₁⟩
    · rw [alone, behind]
      exact .failed error
    rw [alone, behind, ← List.append_assoc, ← List.append_assoc]
    have root_type : (Owner.mk id (type root.head.index key) []).type = type root.head.index key := rfl
    refine (link_inStep linked below root_type (List.subset_append_left log _) admits₂ knows₁).bind
      fun b₂ knows₂ => ?_
    exact link_inStep linked below root_type
      (List.subset_append_of_subset_left _ (List.subset_append_left log _)) admits₃ knows₂

/-- **Rows are assembled behind an assembly as they are alone.** -/
theorem addRows_inStep (wired : Wired s root es)
    (linked : ∀ l ∈ a.links, l.parent < a.identities.length) {rows : List Row}
    (admits : ∀ before row after, rows = before ++ row :: after →
      Admits type es row a (log ++ before.flatMap (root.events type)) (root.events type row))
    (knows : Knows type log b) :
    InStep type a (log ++ rows.flatMap (root.events type)) (addRows s root b (rows.map .ok))
      (addRows s root (a.union b) (rows.map .ok)) := by
  induction rows generalizing log b with
  | nil =>
    rw [List.flatMap_nil, List.append_nil]
    exact .done knows
  | cons row rest ih =>
    have first := admits [] row rest rfl
    rw [List.flatMap_nil, List.append_nil] at first
    rw [addRows_cons, addRows_cons, List.flatMap_cons, ← List.append_assoc]
    refine (addRow_inStep wired linked first knows).bind fun b₁ knows₁ => ih ?_ knows₁
    -- what happens in the first row is behind the others
    intro before row' after split
    have later := admits (row :: before) row' after (congrArg _ split)
    rwa [List.flatMap_cons, ← List.append_assoc] at later

end

end Assembly

end Orm
