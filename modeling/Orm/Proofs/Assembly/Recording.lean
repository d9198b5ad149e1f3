import Orm.Proofs.Assembly.Blocks
import Orm.Proofs.Assembly.History
import Orm.Proofs.Assembly.Populating

/-!
# `Proofs.Assembly.Recording` — rows that were taken are recorded

Rows that can be read are taken and recorded. Here the run comes first: rows have been taken, so whatever
they had to make could be made, and nothing is asked of the rows. Names need to tell fields apart only in
the types that the plan makes. What an assembly records and how its objects came about are then two sides
of one thing: the links in the history of an object are the children that the rows reach over its
relations, and the row that made it is the first that reaches it.

## Contents
- **New instances.** `created_of_named`.
- **Steps.** `Meets.records`, `Links.records`, `Adds.records`.
- **Rows.** `Tells.makes_type`, `Tells.records`.
- **Histories.** `Tells.find?_of_firstIn`, `Records.linked_iff`, `Plan.recorded_of_materialize`.
-/

namespace Orm

open Schema Plan Assembly

/-! ## New instances -/

/-- **A new instance has its type from the row, and nothing is attached to it**, where names tell the fields
of the types apart that its entity makes. -/
theorem created_of_named {s : Schema} {e : Entity} (walked : e.Walked s)
    (named : ∀ u, e.Makes s u → u.Distinct) {row : Row} {key : Key} {i : Instance}
    (h : create s row e.head e.members key = .ok i) : Created e row key i := by
  obtain ⟨populated, whole⟩ := populated_of_create h
  obtain ⟨made, run, result⟩ := ok_bind.mp h
  obtain ⟨entity, key_eq, type⟩ := eq_of_create h
  have plain := walked.plain named row
  refine ⟨entity, key_eq, type, ?_, ?_, fun x hx applies => ?_⟩
  · rw [type]
    exact congrArg Object.typeName whole
  · exact congrArg Object.path whole
  rw [type] at applies
  obtain ⟨leads, kind⟩ := plain.path hx applies
  have clear : Clear x.field (i.object.at? x.path) := by
    rw [whole]
    cases found : (Object.mk _ e.head.path i.object.fields).at? x.path with
    | none => exact .inl rfl
    | some slot =>
      obtain ⟨empty, y, hy, -, path, many⟩ := populated.relation plain leads.fieldPath found
      obtain rfl := walked.path_inj hx hy path.symm
      exact .inr ⟨kind ▸ many, congrArg some empty⟩
  refine clear.holds kind fun many => (list_of_populate run hx applies many).imp_right fun list => ?_
  cases result
  exact list _ _

namespace Assembly

variable {s : Schema} {es : List Entity} {root e : Entity} {row : Row} {m : Members} {part : Part}
  {o : Owner} {key : Key} {id : ObjectId} {t : TypeModel} {types : Nat → Key → TypeModel}
  {before log : List Event} {a a' : Assembly}

/-! ## Steps -/

/-- **An instance that is met is recorded**, and it is of the type of its identity. -/
theorem Meets.records (wired : Wired s root es)
    (named : ∀ e ∈ es, ∀ u, e.Makes s u → u.Distinct) (he : e ∈ es)
    (met : Meets s row e.head e.members key a id t a') (sub : before ⊆ log)
    (tells : Admits types es row {} before [.met e.head.index key])
    (h : Records s types es log a) :
    Records s types es (log ++ [.met e.head.index key]) a' ∧ t = types e.head.index key := by
  cases met with
  | @known _ i found at_id =>
    have identity := identity_of_find? found
    have met : .met e.head.index key ∈ log :=
      mem_identitiesIn.mp (h.mem_identities.mp (List.mem_of_getElem? identity))
    refine ⟨h.again met, ?_⟩
    obtain ⟨entity, key_eq⟩ := Prod.mk.inj (Option.some.inj ((identity_of_instance at_id).symm.trans identity))
    rw [(h.sound i (List.mem_of_getElem? at_id)).type_eq, entity, key_eq]
  | @made i absent created =>
    have new : .met e.head.index key ∉ before := fun old =>
      find?_eq_none_iff.mp absent (h.mem_identities.mpr (mem_identitiesIn.mpr (sub old)))
    have walked := wired.walked e he
    have blank := created_of_named walked (named e he) created
    have type_eq : i.type = types e.head.index key :=
      blank.type.trans ((tells e he key List.mem_cons_self).2 new)
    have described : s.Describes i.type := blank.type ▸ walked.describes_typeOf row
    exact ⟨h.add wired he blank described type_eq absent, type_eq⟩

/-- **Linking that has succeeded is recorded.** -/
theorem Links.records (wired : Wired s root es)
    (named : ∀ e ∈ es, ∀ u, e.Makes s u → u.Distinct)
    (made : ∀ e ∈ es, ∀ key, e.Makes s (types e.head.index key)) (h : Links s row m part o a a')
    (he : e ∈ es) {chain : List (FieldModel × TypeModel)} (sites : ∀ x ∈ m.sites chain, x ∈ e.sites)
    (owns : Owns types e key chain o a) (sub : before ⊆ log)
    (tells : Admits types es row {} before (m.events types row part e.head.index key (!chain.isEmpty)))
    (records : Records s types es log a) :
    Records s types es (log ++ m.events types row part e.head.index key (!chain.isEmpty)) a' := by
  have later {log events : List Event} (sub : before ⊆ log) : before ⊆ log ++ events :=
    List.subset_append_of_subset_left _ sub
  induction h generalizing e chain key log with
  | done =>
    rw [Members.events, List.append_nil]
    exact records
  | skip idle _ ih =>
    rw [idle.events fun _ => owns.applies_eq] at tells ⊢
    exact ih he (fun x hx => sites x (idle.sites_subset chain hx)) owns sub tells records
  | @embedded f u inner rest o a a₁ a₂ _ applies relations embedded _ ih₁ ih₂ ih₃ =>
    have within : ∀ x ∈ inner.sites (chain ++ [(f, u)]), x ∈ e.sites := fun x hx =>
      sites x (List.mem_append_left _ hx)
    have beside : ∀ x ∈ rest.sites chain, x ∈ e.sites := fun x hx =>
      sites x (List.mem_append_right _ hx)
    have nonempty : (!(chain ++ [(f, u)]).isEmpty) = true := by simp
    rw [events_embedded (owns.applies_eq ▸ applies)] at tells ⊢
    simp only [admits_append] at tells
    rw [← nonempty] at tells ⊢
    obtain ⟨tells₁, tells₂, tells₃⟩ := tells
    simp only [← List.append_assoc]
    -- the value object belongs to the instance, so what is inside is linked to it
    have owned := owns.inside applies u
    have grown₁ := relations.identities_prefix
    have records₁ := ih₁ he within owned sub tells₁ records
    have records₂ := ih₂ he within (owned.grow grown₁) (later sub) tells₂ records₁
    exact ih₃ he beside (owns.grow (grown₁.trans embedded.identities_prefix)) (later (later sub))
      tells₃ records₂
  | @relation f kind child inner rest o k id t a a₁ a₂ a₃ _ applies present met relations embedded _
      ih₁ ih₂ ih₃ =>
    have hx := sites ⟨chain, f, kind, child, inner⟩ List.mem_cons_self
    have beside : ∀ x ∈ rest.sites chain, x ∈ e.sites := fun x hx =>
      sites x (List.mem_cons_of_mem _ hx)
    have child_mem : (⟨child, inner⟩ : Entity) ∈ es := wired.closed e he _ hx
    rw [events_relation (owns.applies_eq ▸ applies) present] at tells ⊢
    simp only [admits_append] at tells
    obtain ⟨tells₁, tells₂, tells₃, -, tells₄⟩ := tells
    simp only [← List.append_assoc]
    obtain ⟨records₁, rfl⟩ := Meets.records (e := ⟨child, inner⟩) wired named child_mem met sub tells₁ records
    -- the child is linked as an instance of its own, outside all value objects
    have direct : Owns types ⟨child, inner⟩ k [] ⟨id, types child.index k, []⟩ a₁ :=
      Owns.direct met.identity
    have grown₂ := relations.identities_prefix
    have grown₃ := embedded.identities_prefix
    have records₂ := ih₁ child_mem (fun _ hy => hy) direct (later sub) tells₂ records₁
    have records₃ := ih₂ child_mem (fun _ hy => hy) (direct.grow grown₂) (later (later sub)) tells₃ records₂
    -- and then joined to its owner, which is where it was
    have owns₃ := owns.grow (met.identities_prefix.trans (grown₂.trans grown₃))
    have own := owns.site_applies applies kind child inner
    obtain ⟨_, joins, records₄, grown₄⟩ :=
      records₃.join wired he hx owns₃ (direct.grow (grown₂.trans grown₃)) fun y hy own_y other =>
        (wired.walked e he).apart_of_makes (named e he) (made e he key) hx hy own own_y other
    cases joins
    exact ih₃ he beside (owns₃.grow grown₄) (later (later (later (later sub)))) tells₄ records₄

/-- **A row that was taken adds its events.** -/
theorem Adds.records (wired : Wired s root es)
    (named : ∀ e ∈ es, ∀ u, e.Makes s u → u.Distinct)
    (made : ∀ e ∈ es, ∀ key, e.Makes s (types e.head.index key)) (h : Adds s root row a a')
    (tells : Admits types es row {} log (root.events types row)) (records : Records s types es log a) :
    Records s types es (log ++ root.events types row) a' := by
  cases h with
  | unkeyed absent =>
    rw [Entity.events_of_none absent, List.append_nil]
    exact records
  | @keyed key id t _ a₁ a₂ _ present met relations embedded =>
    rw [Entity.events_of_some present] at tells ⊢
    simp only [admits_append] at tells
    obtain ⟨tells₁, tells₂, tells₃⟩ := tells
    rw [← List.append_assoc, ← List.append_assoc]
    have top := wired.root_mem
    obtain ⟨records₁, rfl⟩ := met.records wired named top (List.Subset.refl log) tells₁ records
    have direct : Owns types root key [] ⟨id, types root.head.index key, []⟩ a₁ :=
      Owns.direct met.identity
    have records₂ := relations.records wired named made top (fun _ hx => hx) direct
      (List.subset_append_left _ _) tells₂ records₁
    exact embedded.records wired named made top (fun _ hx => hx)
      (direct.grow relations.identities_prefix)
      (List.subset_append_of_subset_left _ (List.subset_append_left _ _)) tells₃ records₂

end Assembly

/-! ## Rows -/

section

variable {s : Schema} {es : List Entity} {root e : Entity} {rows : List Row}
  {keys : Nat → Row → Option Key} {types : Nat → Key → TypeModel} {keyAt : Row → Option Key}
  {key : Key} {row : Row} {a : Assembly}

/-- The types that rows tell are among those that the entities make. -/
theorem Tells.makes_type (t : Tells root rows keys types) (wired : Wired s root es) (he : e ∈ es)
    (key : Key) : e.Makes s (types e.head.index key) := by
  obtain ⟨keyAt, reached⟩ := exists_reaches wired rows he
  have walked := wired.walked e he
  rw [t.type_eq reached]
  unfold Entity.told
  split
  · exact walked.makes_typeOf _
  · obtain ⟨below, descend, -⟩ := walked.typeOf_mem
    exact .inr ⟨below, descend, List.mem_cons_self⟩

/-- The first row that meets an identity tells its type. -/
theorem Tells.admits_empty (t : Tells root rows keys types) (wired : Wired s root es)
    {before after : List Row} (split : rows = before ++ row :: after) :
    Admits types es row {} (before.flatMap (root.events types)) (root.events types row) := by
  intro e he key met
  refine ⟨List.not_mem_nil, fun new => ?_⟩
  obtain ⟨keyAt, reached⟩ := exists_reaches wired rows he
  have here := t.keyAt_of_met wired reached met
  have first := find?_of_first split here fun r hr same =>
    new ((t.met_iff wired reached).mpr ⟨r, hr, same⟩)
  rw [t.type_eq reached, Entity.told, first]

/-- **Rows that were taken are recorded**, be they all rows or the first of them. -/
theorem Tells.records (t : Tells root rows keys types) (wired : Wired s root es)
    (named : ∀ e ∈ es, ∀ u, e.Makes s u → u.Distinct) {first after : List Row}
    (split : rows = first ++ after) (run : addRows s root {} (first.map .ok) = .ok a) :
    Records s types es (first.flatMap (root.events types)) a := by
  induction first using List.reverseRecOn generalizing a after with
  | nil =>
    cases run
    exact .start s types es
  | append_singleton first row ih =>
    rw [List.append_assoc] at split
    have whole := run
    rw [List.map_append, addRows_append] at whole
    obtain ⟨b, earlier, -⟩ := ok_bind.mp whole
    rw [addRows_concat earlier] at run
    rw [List.flatMap_append, List.flatMap_singleton]
    exact (addRow_eq_ok_iff.mp run).records wired named (fun e he key => t.makes_type wired he key)
      (t.admits_empty wired split) (ih split earlier)

/-! ## Histories -/

/-- **The row that made an instance is the first that reaches it.** -/
theorem Tells.find?_of_firstIn (t : Tells root rows keys types) (wired : Wired s root es)
    (named : ∀ e ∈ es, ∀ u, e.Makes s u → u.Distinct) (reached : Reaches root rows e keyAt)
    (first : FirstIn s root (rows.map .ok) e.head.index key row) :
    (rows.find? fun row => keyAt row == some key) = some row := by
  obtain ⟨before, after, a, a', split, earlier, added, unknown, known⟩ := first
  obtain ⟨before, last, rfl, rfl, tail⟩ := List.map_eq_append_iff.mp split
  obtain ⟨_, after, rfl, same, -⟩ := List.map_eq_cons_iff.mp tail
  cases same
  have records := t.records wired named rfl earlier
  have grown : before ++ row :: after = (before ++ [row]) ++ after := by simp
  have records' := t.records wired named grown ((addRows_concat earlier row).trans added)
  have met := mem_identitiesIn.mp (records'.mem_identities.mp known)
  have unmet : ∀ r ∈ before, keyAt r ≠ some key := fun r hr here =>
    unknown (records.mem_identities.mpr (mem_identitiesIn.mpr ((t.met_iff wired reached).mpr ⟨r, hr, here⟩)))
  obtain ⟨r, hr, here⟩ := (t.met_iff wired reached).mp met
  rcases List.mem_append.mp hr with old | new
  · exact absurd here (unmet r old)
  · rw [List.mem_singleton.mp new] at here
    exact find?_of_first rfl here unmet

/-- **The history of an instance has a link over a relation just if a child was joined to it there.** -/
theorem Records.linked_iff {log : List Event} (records : Records s types es log a)
    (wired : Wired s root es) (he : e ∈ es) {id : ObjectId} {i : Instance}
    (at_id : a.identities[id]? = some (e.head.index, key)) {links : List (Site × ObjectId)}
    (history : i.History s e row links)
    (told : a.linksOf id = links.map fun l => ⟨id, l.1.child.index, l.2⟩) {x : Site} (hx : x ∈ e.sites) :
    (∃ l ∈ links, l.1 = x) ↔ childrenIn log e.head.index key x.child.index ≠ [] := by
  constructor
  · rintro ⟨l, hl, rfl⟩
    have mem : (⟨id, l.1.child.index, l.2⟩ : Link) ∈ a.linksOf id := by
      rw [told]
      exact List.mem_map.mpr ⟨l, hl, rfl⟩
    obtain ⟨n, k, k', joined, parent, -⟩ := (records.links _).mp (List.mem_filter.mp mem).1
    cases parent.symm.trans at_id
    exact List.ne_nil_of_mem (mem_childrenIn.mpr joined)
  · intro some_child
    obtain ⟨k, mem⟩ := List.exists_mem_of_ne_nil _ some_child
    have joined := mem_childrenIn.mp mem
    obtain ⟨child, at_child⟩ := List.mem_iff_getElem?.mp
      (records.mem_identities.mpr (records.joined joined).2)
    have link : (⟨id, x.child.index, child⟩ : Link) ∈ a.links :=
      (records.links _).mpr ⟨_, _, _, joined, at_id, at_child⟩
    have mem : (⟨id, x.child.index, child⟩ : Link) ∈ a.linksOf id :=
      List.mem_filter.mpr ⟨link, beq_self_eq_true id⟩
    rw [told] at mem
    obtain ⟨l, hl, same⟩ := List.mem_map.mp mem
    have index : l.1.child.index = x.child.index := congrArg Link.entity same
    exact ⟨l, hl, (wired.parent e he _ (history.sites l hl).1 e he x hx index).2⟩

end

/-- The rows of a success are all good. -/
theorem exists_rows_of_addRows {s : Schema} {root : Entity} {rows : List (Except Error Row)}
    {a a' : Assembly} (h : addRows s root a rows = .ok a') : ∃ good : List Row, rows = good.map .ok := by
  induction rows generalizing a with
  | nil => exact ⟨[], rfl⟩
  | cons item rest ih =>
    obtain ⟨row, rfl, later⟩ := ok_bind.mp h
    obtain ⟨_, -, later⟩ := ok_bind.mp later
    obtain ⟨good, rfl⟩ := ih later
    exact ⟨row :: good, rfl⟩

/-- **The graph of a plan is that of an assembly that records all rows and remembers how its objects came
about.** -/
theorem Plan.recorded_of_materialize {s : Schema} {name : String} {p : Plan}
    {rows : List (Except Error Row)} {g : Graph} (built : Plan.build s name = .ok p)
    (named : p.NamesFields s) (made : p.materialize s rows = .ok g) :
    ∃ root good a keys types, p.root = some root ∧ rows = good.map .ok ∧ a.finish = g ∧
      Wired s root p.entities ∧ Tells root good keys types ∧
      Records s types p.entities (good.flatMap (root.events types)) a ∧
      Remembers s p.entities (FirstIn s root (good.map .ok)) a := by
  obtain ⟨root, has_root, wired⟩ := wired_of_build built
  unfold Plan.materialize at made
  rw [has_root] at made
  obtain ⟨a, run, rfl⟩ := map_eq_ok.mp made
  obtain ⟨good, rfl⟩ := exists_rows_of_addRows run
  obtain ⟨keys, types, tells⟩ := exists_tells wired good
  have records := tells.records wired named (List.append_nil good).symm run
  exact ⟨root, good, a, keys, types, has_root, rfl, rfl, wired, tells, records,
    remembers_of_addRows wired run⟩

end Orm
