import Orm.Proofs.Assembly.Run

/-!
# `Proofs.Assembly.Reach` — what rows reach

What rows say of the entities of a plan can be told without assembling anything. A row reaches the
root under its key. It reaches the entity that a relation leads to if it reaches the owner, the owner's
type has the relation, and the key of the entity is not NULL throughout. The type of an instance is
what the first row that reaches it tells.

The events of a row are those of the entities that it reaches, each once.

## Contents
- **Rows.** `Entity.told`, `Site.keyAt`, `Reaches`.
- **Reached entities.** `Reaches.mem`, `Reaches.unique`, `exists_reaches`, `Tells`, `exists_tells`.
- **Events of a row.** `Tells.none_below`, `Picks`, `Members.picked`, `Tells.picked_members`.
-/

namespace Orm

open Schema Plan Assembly

/-! ## Rows -/

/-- The type of the instance of an entity with a key, which the first row tells that reaches it. -/
def Plan.Entity.told (e : Entity) (rows : List Row) (keyAt : Row → Option Key) (key : Key) :
    TypeModel :=
  match rows.find? fun row => keyAt row == some key with
  | some row => typeOf e.head row
  | none => e.head.declared

/-- The key under which a row reaches the entity that a relation leads to, given the owner's types and
the key under which the row reaches it. -/
def Plan.Site.keyAt (x : Site) (type : Key → TypeModel) (ownerAt : Row → Option Key) (row : Row) :
    Option Key :=
  (ownerAt row).bind fun key => if x.applies (type key) then keyOf? x.child x.inner row else none

/-- The entities of a plan, each with the key under which a row reaches it. -/
inductive Reaches (root : Entity) (rows : List Row) : Entity → (Row → Option Key) → Prop where
  | root : Reaches root rows root (keyOf? root.head root.members)
  | child {e : Entity} {keyAt : Row → Option Key} {x : Site} (owner : Reaches root rows e keyAt)
      (hx : x ∈ e.sites) : Reaches root rows x.entity (x.keyAt (e.told rows keyAt) keyAt)

/-- The first row with a key is found. -/
theorem find?_of_first {rows before after : List Row} {row : Row} {keyAt : Row → Option Key} {key : Key}
    (split : rows = before ++ row :: after) (here : keyAt row = some key)
    (unmet : ∀ r ∈ before, keyAt r ≠ some key) :
    (rows.find? fun r => keyAt r == some key) = some row := by
  have earlier : (before.find? fun r => keyAt r == some key) = none :=
    List.find?_eq_none.mpr fun r hr same => unmet r hr (eq_of_beq same)
  rw [split, List.find?_append, earlier, Option.none_or]
  exact List.find?_cons_of_pos (beq_iff_eq.mpr here)

/-! ## Reached entities -/

section

variable {s : Schema} {root : Entity} {es : List Entity} {rows : List Row} {e e' : Entity}
  {keyAt keyAt' : Row → Option Key}

theorem Reaches.mem (h : Reaches root rows e keyAt) (wired : Wired s root es) : e ∈ es := by
  induction h with
  | root => exact wired.root_mem
  | child _ hx ih => exact wired.closed _ ih _ hx

/-- **An entity is reached in one way.** -/
theorem Reaches.unique (h : Reaches root rows e keyAt) (h' : Reaches root rows e' keyAt')
    (wired : Wired s root es) (same : e.head.index = e'.head.index) : e = e' ∧ keyAt = keyAt' := by
  induction h generalizing e' keyAt' with
  | root =>
    cases h' with
    | root => exact ⟨rfl, rfl⟩
    | child owner hx =>
      exact absurd (same.symm.trans wired.root_index) (wired.child_index _ (owner.mem wired) _ hx)
  | child owner hx ih =>
    cases h' with
    | root => exact absurd (same.trans wired.root_index) (wired.child_index _ (owner.mem wired) _ hx)
    | child owner' hx' =>
      obtain ⟨rfl, rfl⟩ := wired.parent _ (owner.mem wired) _ hx _ (owner'.mem wired) _ hx' same
      obtain ⟨-, rfl⟩ := ih owner' rfl
      exact ⟨rfl, rfl⟩

theorem reaches_below {m : Members} {chain : List (FieldModel × TypeModel)}
    (h : ∀ x ∈ m.sites chain, ∃ keyAt, Reaches root rows x.entity keyAt) :
    ∀ e ∈ m.entities, ∃ keyAt, Reaches root rows ⟨e.1, e.2⟩ keyAt := by
  induction m generalizing chain with
  | nil => exact fun _ he => absurd he List.not_mem_nil
  | column f label rest ih => exact ih h
  | embedded f t inner rest inner_ih ih =>
    intro e he
    rcases List.mem_append.mp he with inside | beside
    · exact inner_ih (fun x hx => h x (List.mem_append_left _ hx)) e inside
    · exact ih (fun x hx => h x (List.mem_append_right _ hx)) e beside
  | relation f kind child inner rest inner_ih ih =>
    obtain ⟨keyAt, reached⟩ := h _ List.mem_cons_self
    intro e he
    rcases List.mem_cons.mp he with rfl | he
    · exact ⟨keyAt, reached⟩
    rcases List.mem_append.mp he with below | beside
    · exact inner_ih (fun x (hx : x ∈ inner.sites []) => ⟨_, reached.child hx⟩) e below
    · exact ih (fun x hx => h x (List.mem_cons_of_mem _ hx)) e beside

/-- **Every entity of a plan is reached in some way.** -/
theorem exists_reaches (wired : Wired s root es) (rows : List Row) (he : e ∈ es) :
    ∃ keyAt, Reaches root rows e keyAt := by
  rw [wired.all] at he
  rcases List.mem_cons.mp he with rfl | below
  · exact ⟨_, .root⟩
  · obtain ⟨entry, mem, rfl⟩ := List.mem_map.mp below
    exact reaches_below (fun x (hx : x ∈ root.sites) => ⟨_, Reaches.root.child hx⟩) entry mem

/-- What rows say of the entities of a plan, by their positions: the keys and the types. -/
structure Tells (root : Entity) (rows : List Row) (keyAt : Nat → Row → Option Key)
    (type : Nat → Key → TypeModel) : Prop where
  keyAt_eq : ∀ {e keyAt'}, Reaches root rows e keyAt' → keyAt e.head.index = keyAt'
  type_eq : ∀ {e keyAt'}, Reaches root rows e keyAt' → type e.head.index = e.told rows keyAt'

theorem exists_tells (wired : Wired s root es) (rows : List Row) :
    ∃ keyAt type, Tells root rows keyAt type := by
  have each : ∀ n, ∃ v : (Row → Option Key) × (Key → TypeModel), ∀ e keyAt,
      Reaches root rows e keyAt → e.head.index = n → v = (keyAt, e.told rows keyAt) := by
    intro n
    by_cases reached : ∃ e keyAt, Reaches root rows e keyAt ∧ e.head.index = n
    · obtain ⟨e, keyAt, h, rfl⟩ := reached
      refine ⟨(keyAt, e.told rows keyAt), fun e' keyAt' h' same => ?_⟩
      obtain ⟨rfl, rfl⟩ := h.unique h' wired same.symm
      rfl
    · exact ⟨(fun _ => none, fun _ => root.head.declared), fun e keyAt h same =>
        absurd ⟨e, keyAt, h, same⟩ reached⟩
  obtain ⟨v, all⟩ := Classical.axiomOfChoice each
  exact ⟨fun n => (v n).1, fun n => (v n).2, fun h => congrArg Prod.fst (all _ _ _ h rfl),
    fun h => congrArg Prod.snd (all _ _ _ h rfl)⟩

/-! ## Events of a row -/

variable {keys : Nat → Row → Option Key} {type : Nat → Key → TypeModel} {row : Row}
  {m : Members} {chain : List (FieldModel × TypeModel)} {key : Key}

/-- The key under which a row reaches an entity follows from that of the owner. -/
theorem Tells.child (t : Tells root rows keys type) (reached : Reaches root rows e keyAt) {x : Site}
    (hx : x ∈ e.sites) (row : Row) :
    keys x.child.index row = (keys e.head.index row).bind fun key =>
      if x.applies (type e.head.index key) then keyOf? x.child x.inner row else none := by
  rw [t.keyAt_eq reached, t.type_eq reached]
  exact congrFun (t.keyAt_eq (reached.child hx)) row

/-- Where no relation of members leads anywhere, nothing below is reached. -/
theorem Tells.none_below (t : Tells root rows keys type) (reached : Reaches root rows e keyAt)
    (sites : ∀ x ∈ m.sites chain, x ∈ e.sites)
    (absent : ∀ x ∈ m.sites chain, keys x.child.index row = none) :
    ∀ c ∈ m.entities.map (·.1.index), keys c row = none := by
  induction m generalizing e keyAt chain with
  | nil => exact fun _ hc => absurd hc List.not_mem_nil
  | column f label rest ih => exact ih reached sites absent
  | embedded f target inner rest inner_ih ih =>
    intro c hc
    rw [Members.entities, List.map_append] at hc
    rcases List.mem_append.mp hc with inside | beside
    · exact inner_ih reached (fun x hx => sites x (List.mem_append_left _ hx))
        (fun x hx => absent x (List.mem_append_left _ hx)) c inside
    · exact ih reached (fun x hx => sites x (List.mem_append_right _ hx))
        (fun x hx => absent x (List.mem_append_right _ hx)) c beside
  | relation f kind child inner rest inner_ih ih =>
    have here := absent _ List.mem_cons_self
    have child_reached := reached.child (sites _ List.mem_cons_self)
    intro c hc
    rw [Members.entities, List.map_cons, List.map_append] at hc
    rcases List.mem_cons.mp hc with rfl | hc
    · exact here
    rcases List.mem_append.mp hc with below | beside
    · refine inner_ih child_reached (fun x (hx : x ∈ inner.sites []) => hx) (fun x hx => ?_) c below
      rw [t.child child_reached hx row]
      show (keys child.index row).bind _ = _
      rw [here]
      rfl
    · exact ih reached (fun x hx => sites x (List.mem_cons_of_mem _ hx))
        (fun x hx => absent x (List.mem_cons_of_mem _ hx)) c beside

/-- Where an entity is not reached, nothing below it is. -/
theorem Tells.none_below_of_none (t : Tells root rows keys type) (reached : Reaches root rows e keyAt)
    (absent : keys e.head.index row = none) :
    ∀ c ∈ e.members.entities.map (·.1.index), keys c row = none := by
  refine t.none_below reached (fun x (hx : x ∈ e.sites) => hx) fun x hx => ?_
  rw [t.child reached hx row, absent]
  rfl

/-- In a row that reaches an owner, a value object of another type has nothing below. -/
theorem Tells.none_below_foreign (t : Tells root rows keys type) (reached : Reaches root rows e keyAt)
    {f : FieldModel} {target : TypeModel}
    (sites : ∀ x ∈ m.sites (chain ++ [(f, target)]), x ∈ e.sites)
    (present : keys e.head.index row = some key) (gated : Gated (type e.head.index key) chain)
    (foreign : ¬ (!chain.isEmpty || (type e.head.index key).isA f.owner) = true) :
    ∀ c ∈ m.entities.map (·.1.index), keys c row = none := by
  refine t.none_below reached sites fun x hx => ?_
  have mem := sites x hx
  rw [Members.sites_eq_map] at hx
  obtain ⟨y, -, rfl⟩ := List.mem_map.mp hx
  have gate : (y.below (chain ++ [(f, target)])).applies (type e.head.index key) =
      (!chain.isEmpty || (type e.head.index key).isA f.owner) :=
    gated.applies_eq (List.append_assoc chain [(f, target)] y.chain) rfl
  rw [t.child reached mem row, present, Option.bind_some, gate, if_neg foreign]

/-- In a row that reaches an owner, a relation leads to the entity of its key, if it is one of the
owner's type. -/
theorem Tells.child_of_present (t : Tells root rows keys type) (reached : Reaches root rows e keyAt)
    {x : Site} (hx : x ∈ e.sites) (present : keys e.head.index row = some key)
    (gated : Gated (type e.head.index key) x.chain) :
    keys x.child.index row =
      if (!x.chain.isEmpty || (type e.head.index key).isA x.field.owner) = true then
        keyOf? x.child x.inner row
      else none := by
  rw [t.child reached hx row, present, Option.bind_some,
    gated.applies_eq (f := x.field) (List.append_nil x.chain).symm rfl]

end

/-- The entity that an event is about. -/
def Event.entity : Event → Nat
  | .met entity _ => entity
  | .joined _ _ entity _ => entity

/-- A member of two lists without repetitions is in one of them. -/
theorem ite_mem_append {α β : Type} [DecidableEq α] {a : α} {l l' : List α}
    (distinct : (l ++ l').Nodup) (found : List β) :
    (if a ∈ l ++ l' then found else []) =
      (if a ∈ l then found else []) ++ (if a ∈ l' then found else []) := by
  have apart : a ∈ l → a ∉ l' := fun left right =>
    (List.nodup_append.mp distinct).2.2 a left a right rfl
  by_cases left : a ∈ l
  · simp [left, apart left]
  · simp [left]

section

variable {s : Schema} {root : Entity} {es : List Entity} {rows : List Row}
  {keys : Nat → Row → Option Key} {type : Nat → Key → TypeModel} {row : Row} {β : Type}
  {g : Event → Option β} {c : Nat} {found : List β}

/-- What is picked from the two events of one entity, if a row reaches it; it is nothing if not. -/
structure Picks (root : Entity) (rows : List Row) (keys : Nat → Row → Option Key) (row : Row)
    (c : Nat) (g : Event → Option β) (found : List β) : Prop where
  elsewhere : ∀ event, event.entity ≠ c → g event = none
  absent : keys c row = none → found = []
  here : ∀ {e keyAt x key k}, Reaches root rows e keyAt → x ∈ e.sites → x.child.index = c →
    keys e.head.index row = some key → keys c row = some k →
    [Event.met c k].filterMap g ++ [Event.joined e.head.index key c k].filterMap g = found

/-- Nothing is picked among entities that are not reached. -/
theorem Picks.nothing (p : Picks root rows keys row c g found) {ns : List Nat}
    (none : ∀ n ∈ ns, keys n row = none) : (if c ∈ ns then found else []) = [] := by
  split
  next mem => exact p.absent (none c mem)
  next => rfl

/-- Nothing is picked from an event of another entity. -/
theorem Picks.filterMap_of_ne (p : Picks root rows keys row c g found) {event : Event}
    (other : event.entity ≠ c) : [event].filterMap g = [] :=
  List.filterMap_cons_none (p.elsewhere event other)

/-- What is picked from the events of some members, those of value objects last. -/
def Plan.Members.picked (m : Members) (type : Nat → Key → TypeModel) (row : Row) (n : Nat) (key : Key)
    (inside : Bool) (g : Event → Option β) : List β :=
  (m.events type row .relations n key inside).filterMap g ++
    (m.events type row .embedded n key inside).filterMap g

section

variable {e : Entity} {keyAt : Row → Option Key} {key k : Key} {f : FieldModel} {target : TypeModel}
  {kind : RelationKind} {child : EntityHead} {inner rest : Members}
  {chain : List (FieldModel × TypeModel)}

/-- What is picked from a value object and from the members beside it. -/
theorem Tells.picked_embedded (t : Tells root rows keys type)
    (p : Picks root rows keys row c g found) (reached : Reaches root rows e keyAt)
    (within : ∀ x ∈ inner.sites (chain ++ [(f, target)]), x ∈ e.sites)
    (present : keys e.head.index row = some key) (gated : Gated (type e.head.index key) chain)
    (distinct : ((inner.entities ++ rest.entities).map (·.1.index)).Nodup)
    (inside : (!chain.isEmpty || (type e.head.index key).isA f.owner) = true →
      inner.picked type row e.head.index key true g =
        if c ∈ inner.entities.map (·.1.index) then found else [])
    (beside : rest.picked type row e.head.index key (!chain.isEmpty) g =
      if c ∈ rest.entities.map (·.1.index) then found else []) :
    (Members.embedded f target inner rest).picked type row e.head.index key (!chain.isEmpty) g =
      if c ∈ (inner.entities ++ rest.entities).map (·.1.index) then found else [] := by
  rw [List.map_append] at distinct ⊢
  have apart := (List.nodup_append.mp distinct).2.2
  rw [ite_mem_append distinct]
  show (rest.events type row .relations _ _ _).filterMap g ++ _ = _
  by_cases applies : (!chain.isEmpty || (type e.head.index key).isA f.owner) = true
  case neg =>
    rw [events_embedded_of_not applies,
      p.nothing (t.none_below_foreign reached within present gated applies), List.nil_append]
    exact beside
  have inside : (inner.events type row .relations _ _ _).filterMap g ++ _ = _ := inside applies
  rw [events_embedded applies, List.filterMap_append, List.filterMap_append,
    ← List.append_assoc (List.filterMap g _) _ (List.filterMap g _), inside]
  -- the entity is in the value object or beside it, never in both
  by_cases mem : c ∈ inner.entities.map (·.1.index)
  · rw [if_neg fun other => apart c mem c other rfl] at beside ⊢
    obtain ⟨no_relations, no_embedded⟩ := List.append_eq_nil_iff.mp beside
    rw [no_relations, no_embedded]
    rfl
  · rw [if_neg mem]
    exact beside

/-- Nothing is picked from a relation that leads to no key. -/
theorem Tells.picked_unreached (t : Tells root rows keys type)
    (p : Picks root rows keys row c g found) (reached : Reaches root rows e keyAt)
    (hx : ⟨chain, f, kind, child, inner⟩ ∈ e.sites) (present : keys e.head.index row = some key)
    (gated : Gated (type e.head.index key) chain) (unmet : keys child.index row = none)
    (distinct : (([(child, inner)] ++ inner.entities ++ rest.entities).map (·.1.index)).Nodup)
    (beside : rest.picked type row e.head.index key (!chain.isEmpty) g =
      if c ∈ rest.entities.map (·.1.index) then found else []) :
    (Members.relation f kind child inner rest).picked type row e.head.index key (!chain.isEmpty) g =
      if c ∈ ([(child, inner)] ++ inner.entities ++ rest.entities).map (·.1.index) then found
      else [] := by
  have child_key : keys child.index row = _ := t.child_of_present reached hx present gated
  have skipped : (Members.relation f kind child inner rest).events type row .relations
      e.head.index key (!chain.isEmpty) =
        rest.events type row .relations e.head.index key (!chain.isEmpty) := by
    by_cases applies : (!chain.isEmpty || (type e.head.index key).isA f.owner) = true
    · rw [if_pos applies] at child_key
      exact events_relation_of_none (child_key.symm.trans unmet)
    · exact events_relation_of_not applies
  have below : ∀ n ∈ ([(child, inner)] ++ inner.entities).map (·.1.index), keys n row = none := by
    intro n hn
    rcases List.mem_cons.mp hn with rfl | lower
    · exact unmet
    · exact t.none_below_of_none (reached.child hx) unmet n lower
  rw [List.map_append] at distinct ⊢
  rw [ite_mem_append distinct, p.nothing below, List.nil_append, ← beside]
  exact congrArg (·.filterMap g ++ (rest.events type row .embedded _ _ _).filterMap g) skipped

/-- What is picked from a relation that leads to a key and from the members beside it. The two events
of the child stand around those of what is below it. -/
theorem Tells.picked_reached (t : Tells root rows keys type)
    (p : Picks root rows keys row c g found) (reached : Reaches root rows e keyAt)
    (hx : ⟨chain, f, kind, child, inner⟩ ∈ e.sites) (present : keys e.head.index row = some key)
    (gated : Gated (type e.head.index key) chain) (met : keys child.index row = some k)
    (distinct : (([(child, inner)] ++ inner.entities ++ rest.entities).map (·.1.index)).Nodup)
    (inside : inner.picked type row child.index k false g =
      if c ∈ inner.entities.map (·.1.index) then found else [])
    (beside : rest.picked type row e.head.index key (!chain.isEmpty) g =
      if c ∈ rest.entities.map (·.1.index) then found else []) :
    (Members.relation f kind child inner rest).picked type row e.head.index key (!chain.isEmpty) g =
      if c ∈ ([(child, inner)] ++ inner.entities ++ rest.entities).map (·.1.index) then found
      else [] := by
  have child_key : keys child.index row = _ := t.child_of_present reached hx present gated
  have applies : (!chain.isEmpty || (type e.head.index key).isA f.owner) = true := by
    by_contra foreign
    rw [if_neg foreign, met] at child_key
    cases child_key
  rw [if_pos applies, met] at child_key
  rw [List.map_append, List.map_append] at distinct ⊢
  obtain ⟨below_distinct, -, -⟩ := List.nodup_append.mp distinct
  rw [ite_mem_append distinct, ite_mem_append below_distinct, ← beside]
  unfold Members.picked at inside ⊢
  rw [events_relation applies child_key.symm]
  simp only [List.filterMap_append]
  show _ ++ (rest.events type row .embedded _ _ _).filterMap g = _
  by_cases own : child.index = c
  · subst own
    have not_inside : child.index ∉ inner.entities.map (·.1.index) :=
      (List.nodup_cons.mp below_distinct).1
    rw [if_neg not_inside] at inside ⊢
    obtain ⟨no_relations, no_embedded⟩ := List.append_eq_nil_iff.mp inside
    have first : child.index ∈ [(child, inner)].map (·.1.index) := List.mem_cons_self
    rw [if_pos first, ← p.here reached hx rfl present met, no_relations, no_embedded]
    simp only [List.nil_append, List.append_assoc]
  · have no_met : [Event.met child.index k].filterMap g = [] := p.filterMap_of_ne own
    have no_joined : [Event.joined e.head.index key child.index k].filterMap g = [] :=
      p.filterMap_of_ne own
    have not_first : c ∉ [(child, inner)].map (·.1.index) := fun mem =>
      own (List.mem_singleton.mp mem).symm
    rw [no_met, no_joined, if_neg not_first, ← inside]
    simp only [List.nil_append, List.append_assoc]

/-- **What is picked from the events of a row about one entity.** It is what is picked from the two
events of the entity, if the row reaches it, and nothing if not. -/
theorem Tells.picked_members (t : Tells root rows keys type)
    (p : Picks root rows keys row c g found) (m : Members) (reached : Reaches root rows e keyAt)
    (sites : ∀ x ∈ m.sites chain, x ∈ e.sites) (present : keys e.head.index row = some key)
    (gated : Gated (type e.head.index key) chain)
    (distinct : (m.entities.map (·.1.index)).Nodup) :
    m.picked type row e.head.index key (!chain.isEmpty) g =
      if c ∈ m.entities.map (·.1.index) then found else [] := by
  induction m generalizing e keyAt chain key with
  | nil => rfl
  | column f label rest ih => exact ih reached sites present gated distinct
  | embedded f target inner rest inner_ih ih =>
    obtain ⟨inner_distinct, rest_distinct, -⟩ := List.nodup_append.mp (List.map_append ▸ distinct)
    have within : ∀ x ∈ inner.sites (chain ++ [(f, target)]), x ∈ e.sites := fun x hx =>
      sites x (List.mem_append_left _ hx)
    have after : ∀ x ∈ rest.sites chain, x ∈ e.sites := fun x hx =>
      sites x (List.mem_append_right _ hx)
    have nonempty : (!(chain ++ [(f, target)]).isEmpty) = true := by simp
    refine t.picked_embedded p reached within present gated distinct (fun applies => ?_)
      (ih reached after present gated rest_distinct)
    rw [← nonempty]
    exact inner_ih reached within present (gated.concat applies target) inner_distinct
  | relation f kind child inner rest inner_ih ih =>
    have distinct : (([(child, inner)] ++ inner.entities ++ rest.entities).map (·.1.index)).Nodup :=
      distinct
    obtain ⟨below_distinct, rest_distinct, -⟩ := List.nodup_append.mp (List.map_append ▸ distinct)
    have hx := sites ⟨chain, f, kind, child, inner⟩ List.mem_cons_self
    have after : ∀ x ∈ rest.sites chain, x ∈ e.sites := fun x hx =>
      sites x (List.mem_cons_of_mem _ hx)
    have beside := ih reached after present gated rest_distinct
    cases met : keys child.index row with
    | none => exact t.picked_unreached p reached hx present gated met distinct beside
    | some k =>
      have inside := inner_ih (reached.child hx) (fun x (hx : x ∈ inner.sites []) => hx) met
        (Gated.nil _) (List.nodup_cons.mp below_distinct).2
      exact t.picked_reached p reached hx present gated met distinct inside beside

end

/-- The same for all events of a row. -/
theorem Tells.filterMap_row (t : Tells root rows keys type) (wired : Wired s root es)
    (p : Picks root rows keys row c g found) :
    (root.events type row).filterMap g =
      match keyOf? root.head root.members row with
      | none => []
      | some k => [Event.met 0 k].filterMap g ++
          if c ∈ root.members.entities.map (·.1.index) then found else [] := by
  have root_reached : Reaches root rows root _ := .root
  have root_key := t.keyAt_eq root_reached
  unfold Entity.events
  cases met : keyOf? root.head root.members row with
  | none => rfl
  | some k =>
    have below := t.picked_members p root.members Reaches.root (fun x hx => hx)
      ((congrFun root_key row).trans met) (Gated.nil _) (List.nodup_cons.mp wired.distinct_below).2
    rw [← below]
    show (([Event.met root.head.index k] ++ _) ++ _ : List Event).filterMap g = _
    rw [List.filterMap_append, List.filterMap_append, List.append_assoc, wired.root_index]
    rfl

/-- What is picked about an entity that a relation leads to. -/
theorem Tells.filterMap_child (t : Tells root rows keys type) (wired : Wired s root es)
    {e : Entity} {keyAt : Row → Option Key} {x : Site} (reached : Reaches root rows e keyAt)
    (hx : x ∈ e.sites) (p : Picks root rows keys row x.child.index g found) :
    (root.events type row).filterMap g = found := by
  have below := wired.child_below (reached.mem wired) hx
  rw [t.filterMap_row wired p, if_pos below]
  cases met : keyOf? root.head root.members row with
  | some k =>
    have other : 0 ≠ x.child.index := Ne.symm (wired.child_index e (reached.mem wired) x hx)
    have nothing : [Event.met 0 k].filterMap g = [] := p.filterMap_of_ne other
    show [Event.met 0 k].filterMap g ++ found = found
    rw [nothing, List.nil_append]
  | none =>
    have root_reached : Reaches root rows root _ := .root
    have unmet : keys root.head.index row = none := (congrFun (t.keyAt_eq root_reached) row).trans met
    exact (p.absent (t.none_below_of_none root_reached unmet _ below)).symm

/-- What is picked about an entity that a relation leads to can be told from its owner alone. -/
theorem Picks.of_owner (wired : Wired s root es) {e : Entity} {keyAt : Row → Option Key} {x : Site}
    (reached : Reaches root rows e keyAt) (hx : x ∈ e.sites)
    (elsewhere : ∀ event, event.entity ≠ x.child.index → g event = none)
    (absent : keys x.child.index row = none → found = [])
    (here : ∀ {key k}, keys e.head.index row = some key → keys x.child.index row = some k →
      [Event.met x.child.index k].filterMap g ++
        [Event.joined e.head.index key x.child.index k].filterMap g = found) :
    Picks root rows keys row x.child.index g found := by
  refine ⟨elsewhere, absent, fun {e' keyAt' x' key k} reached' hx' same present met => ?_⟩
  obtain ⟨rfl, rfl⟩ := wired.parent _ (reached'.mem wired) _ hx' _ (reached.mem wired) _ hx same
  exact here present met

/-- The keys under which an entity is met are picked from a row. -/
theorem Tells.picks_key (t : Tells root rows keys type) {e : Entity} {keyAt : Row → Option Key}
    (reached : Reaches root rows e keyAt) (row : Row) :
    Picks root rows keys row e.head.index (Event.key? e.head.index) (keyAt row).toList := by
  have own : keys e.head.index row = keyAt row := congrFun (t.keyAt_eq reached) row
  constructor
  case elsewhere =>
    intro event other
    cases event with
    | met entity key => exact if_neg other
    | joined => rfl
  case absent =>
    intro none
    rw [← own, none]
    rfl
  case here =>
    intro e' keyAt' x' key k _ _ _ _ met
    rw [← own, met, List.filterMap_cons_some (Event.key?_met e.head.index k)]
    rfl

/-- **A row meets an entity once under the key under which it reaches it, or not at all.** -/
theorem Tells.keysIn_events (t : Tells root rows keys type) (wired : Wired s root es) {e : Entity}
    {keyAt : Row → Option Key} (reached : Reaches root rows e keyAt) (row : Row) :
    keysIn (root.events type row) e.head.index = (keyAt row).toList := by
  have picks := t.picks_key reached row
  cases reached with
  | root =>
    unfold keysIn
    rw [t.filterMap_row wired picks]
    cases keyOf? root.head root.members row with
    | none => rfl
    | some k =>
      rw [if_neg (List.nodup_cons.mp wired.distinct_below).1, wired.root_index]
      show [Event.met 0 k].filterMap (Event.key? 0) ++ [] = [k]
      rw [List.append_nil, List.filterMap_cons_some (Event.key?_met 0 k), List.filterMap_nil]
  | child owner hx => exact t.filterMap_child wired owner hx picks

theorem Tells.keyAt_of_met (t : Tells root rows keys type) (wired : Wired s root es) {e : Entity}
    {keyAt : Row → Option Key} (reached : Reaches root rows e keyAt) {key : Key}
    (met : .met e.head.index key ∈ root.events type row) : keyAt row = some key := by
  have mem := mem_keysIn.mpr met
  rw [t.keysIn_events wired reached] at mem
  exact Option.mem_toList.mp mem

/-- **A row joins a child to its owner if it reaches both.** -/
theorem Tells.childrenIn_events (t : Tells root rows keys type) (wired : Wired s root es)
    {e : Entity} {keyAt : Row → Option Key} (reached : Reaches root rows e keyAt) {x : Site}
    (hx : x ∈ e.sites) (key : Key) (row : Row) :
    childrenIn (root.events type row) e.head.index key x.child.index =
      if keyAt row = some key then (keys x.child.index row).toList else [] := by
  refine t.filterMap_child wired reached hx (Picks.of_owner wired reached hx ?_ ?_ ?_)
  · intro event other
    cases event with
    | met => rfl
    | joined owner ownerKey entity k => exact if_neg fun same => other same.2.2
  · intro absent
    rw [absent]
    exact ite_self []
  · intro key' k present met
    rw [t.keyAt_eq reached] at present
    rw [present, met, List.filterMap_cons_none rfl]
    by_cases same : key' = key
    · subst same
      rw [if_pos rfl, List.filterMap_cons_some (Event.child?_joined _ _ _ _)]
      rfl
    · have other : (Event.joined e.head.index key' x.child.index k).child? e.head.index key
          x.child.index = none := if_neg fun eq => same eq.2.1
      rw [if_neg fun eq => same (Option.some.inj eq), List.filterMap_cons_none other]
      rfl

end

end Orm
