import Mathlib.Data.List.Induction
import Orm.Proofs.Assembly.Creation

/-!
# `Proofs.Assembly.Records` — what an assembly records

While rows are assembled, entities are met under keys and children are joined to their owners. An
assembly records this log: it has one instance for each entity and key that was met, in the order of
the first time; its links are the pairs that were joined; and each relation holds the children that
were joined to its owner, in the order of the first time.

Meeting and linking keep an assembly in step with the log.

## Contents
- **First times.** `eraseDups_concat`, `nodup_eraseDups`.
- **Logs.** `Event`, `identitiesIn`, `childrenIn`.
- **Arenas.** `Assembly.identities`, `find?_eq_none_iff`, `Lists`.
- **Records.** `Instance.Sound`, `Records`, `Records.start`.
- **Steps.** `Records.again`, `Records.add`, `Records.connect`.
-/

namespace Orm

open Schema Plan

/-! ## First times -/

section

variable {α β : Type} [BEq α] [LawfulBEq α]

/-- One more item comes last unless it has been there. -/
theorem eraseDups_concat (l : List α) (a : α) :
    (l ++ [a]).eraseDups = if a ∈ l then l.eraseDups else l.eraseDups ++ [a] := by
  rw [List.eraseDups_append]
  split
  next present => simp [List.removeAll, present]
  next absent => simp [List.removeAll, absent, List.eraseDups_cons]

theorem nodup_eraseDups (l : List α) : l.eraseDups.Nodup := by
  induction l using List.reverseRecOn with
  | nil => exact List.nodup_nil
  | append_singleton l a ih =>
    rw [eraseDups_concat]
    split
    · exact ih
    next absent =>
      refine List.nodup_append.mpr ⟨ih, List.nodup_singleton a, ?_⟩
      rintro x hx y hy rfl
      rw [List.mem_singleton.mp hy] at hx
      exact absent (List.mem_eraseDups.mp hx)

end

/-- One more item comes behind the others, which are where they were. -/
theorem getElem?_concat_iff {α : Type} {l : List α} {a b : α} (distinct : (l ++ [a]).Nodup) (known : b ∈ l)
    {i : Nat} : (l ++ [a])[i]? = some b ↔ l[i]? = some b := by
  rw [List.getElem?_append]
  split
  next => exact Iff.rfl
  next beyond =>
    rw [List.getElem?_eq_none_iff.mpr (Nat.le_of_not_lt beyond)]
    refine iff_of_false (fun found => ?_) nofun
    have last := List.mem_singleton.mp (List.mem_of_getElem? found)
    exact (List.nodup_append.mp distinct).2.2 b known a (List.mem_singleton_self a) last

/-! ## Logs -/

/-- What happens while rows are assembled: an entity is met under a key, or a child is joined to its
owner. Entities are given by their positions. -/
inductive Event where
  | met (entity : Nat) (key : Key)
  | joined (owner : Nat) (ownerKey : Key) (entity : Nat) (key : Key)
  deriving DecidableEq

namespace Event

/-- The entity and key that are met. -/
def identity? : Event → Option (Nat × Key)
  | .met entity key => some (entity, key)
  | .joined .. => none

/-- The key under which one entity is met. -/
def key? (entity : Nat) : Event → Option Key
  | .met e key => if e = entity then some key else none
  | .joined .. => none

@[simp]
theorem key?_met (entity : Nat) (key : Key) : (met entity key).key? entity = some key :=
  if_pos rfl

/-- The key of a child of one entity that is joined to an owner. -/
def child? (owner : Nat) (ownerKey : Key) (entity : Nat) : Event → Option Key
  | .met .. => none
  | .joined o k e key => if o = owner ∧ k = ownerKey ∧ e = entity then some key else none

theorem child?_eq_some_iff {owner entity : Nat} {ownerKey key : Key} {event : Event} :
    event.child? owner ownerKey entity = some key ↔ event = .joined owner ownerKey entity key := by
  cases event with
  | met e k => exact ⟨nofun, nofun⟩
  | joined o k e key' =>
    simp only [child?, Option.ite_none_right_eq_some, Option.some.injEq, joined.injEq, and_assoc]

@[simp]
theorem child?_joined (owner : Nat) (ownerKey : Key) (entity : Nat) (key : Key) :
    (joined owner ownerKey entity key).child? owner ownerKey entity = some key :=
  child?_eq_some_iff.mpr rfl

end Event

/-- The entities and keys that a log has met, with repetitions. -/
def identitiesIn (log : List Event) : List (Nat × Key) :=
  log.filterMap Event.identity?

/-- The keys under which a log has met one entity, with repetitions. -/
def keysIn (log : List Event) (entity : Nat) : List Key :=
  log.filterMap (Event.key? entity)

/-- The keys of the children of one entity that a log has joined to an owner, with repetitions. -/
def childrenIn (log : List Event) (owner : Nat) (ownerKey : Key) (entity : Nat) : List Key :=
  log.filterMap (Event.child? owner ownerKey entity)

section

variable {log : List Event} {owner entity : Nat} {ownerKey key : Key} {event : Event}

theorem identitiesIn_append (a b : List Event) :
    identitiesIn (a ++ b) = identitiesIn a ++ identitiesIn b :=
  List.filterMap_append

theorem childrenIn_append (a b : List Event) (owner : Nat) (ownerKey : Key) (entity : Nat) :
    childrenIn (a ++ b) owner ownerKey entity =
      childrenIn a owner ownerKey entity ++ childrenIn b owner ownerKey entity :=
  List.filterMap_append

theorem mem_identitiesIn : (entity, key) ∈ identitiesIn log ↔ .met entity key ∈ log := by
  unfold identitiesIn
  rw [List.mem_filterMap]
  constructor
  · rintro ⟨event, mem, same⟩
    cases event with
    | met e k =>
      cases same
      exact mem
    | joined => cases same
  · exact fun mem => ⟨_, mem, rfl⟩

theorem mem_keysIn : key ∈ keysIn log entity ↔ .met entity key ∈ log := by
  unfold keysIn
  rw [List.mem_filterMap]
  constructor
  · rintro ⟨event, mem, same⟩
    cases event with
    | met e k =>
      obtain ⟨rfl, key_eq⟩ := Option.ite_none_right_eq_some.mp same
      cases key_eq
      exact mem
    | joined => cases same
  · exact fun mem => ⟨_, mem, Event.key?_met _ _⟩

/-- The keys of one entity among the identities that were met, each once. -/
theorem filterMap_identities (log : List Event) (entity : Nat) :
    ((identitiesIn log).eraseDups.filterMap fun p => if p.1 = entity then some p.2 else none) =
      (keysIn log entity).eraseDups := by
  induction log using List.reverseRecOn with
  | nil => rfl
  | append_singleton log event ih =>
    have keys : keysIn (log ++ [event]) entity = keysIn log entity ++ [event].filterMap _ :=
      List.filterMap_append
    rw [identitiesIn_append, keys]
    cases event with
    | joined =>
      show ((identitiesIn log ++ []).eraseDups.filterMap _) = (keysIn log entity ++ []).eraseDups
      rw [List.append_nil, List.append_nil, ih]
    | met e k =>
      show ((identitiesIn log ++ [(e, k)]).eraseDups.filterMap _) = _
      by_cases here : e = entity
      · subst here
        have same : [Event.met e k].filterMap (Event.key? e) = [k] :=
          List.filterMap_cons_some (Event.key?_met e k)
        rw [same, eraseDups_concat, eraseDups_concat]
        by_cases known : .met e k ∈ log
        · rw [if_pos (mem_identitiesIn.mpr known), if_pos (mem_keysIn.mpr known), ih]
        · rw [if_neg fun mem => known (mem_identitiesIn.mp mem),
            if_neg fun mem => known (mem_keysIn.mp mem), List.filterMap_append, ih]
          simp
      · have other : [Event.met e k].filterMap (Event.key? entity) = [] :=
          List.filterMap_cons_none (if_neg here)
        rw [other, List.append_nil, eraseDups_concat, ← ih]
        split
        · rfl
        · simp [here]

theorem mem_childrenIn :
    key ∈ childrenIn log owner ownerKey entity ↔ .joined owner ownerKey entity key ∈ log := by
  unfold childrenIn
  rw [List.mem_filterMap]
  constructor
  · rintro ⟨event, mem, same⟩
    exact Event.child?_eq_some_iff.mp same ▸ mem
  · exact fun mem => ⟨_, mem, Event.child?_joined _ _ _ _⟩

/-- Meeting an entity joins nothing. -/
theorem childrenIn_concat_met (e : Nat) (k : Key) :
    childrenIn (log ++ [.met e k]) owner ownerKey entity = childrenIn log owner ownerKey entity := by
  rw [childrenIn_append]
  exact List.append_nil _

/-- Joining a child adds it to its owner. -/
theorem childrenIn_concat_joined :
    childrenIn (log ++ [.joined owner ownerKey entity key]) owner ownerKey entity =
      childrenIn log owner ownerKey entity ++ [key] := by
  rw [childrenIn_append]
  refine congrArg _ ?_
  show [Event.joined owner ownerKey entity key].filterMap _ = [key]
  rw [List.filterMap_cons_some (Event.child?_joined _ _ _ _), List.filterMap_nil]

/-- Joining a child elsewhere adds nothing here. -/
theorem childrenIn_concat_of_ne (other : ∀ key, event ≠ .joined owner ownerKey entity key) :
    childrenIn (log ++ [event]) owner ownerKey entity = childrenIn log owner ownerKey entity := by
  have none : event.child? owner ownerKey entity = none :=
    Option.eq_none_iff_forall_ne_some.mpr fun key some => other key (Event.child?_eq_some_iff.mp some)
  rw [childrenIn_append]
  show _ ++ [event].filterMap _ = _
  rw [List.filterMap_cons_none none, List.filterMap_nil, List.append_nil]

/-- Joining a child again adds nothing new. -/
theorem eraseDups_childrenIn_concat (present : event ∈ log) :
    (childrenIn (log ++ [event]) owner ownerKey entity).eraseDups =
      (childrenIn log owner ownerKey entity).eraseDups := by
  by_cases here : ∃ key, event = .joined owner ownerKey entity key
  · obtain ⟨key, rfl⟩ := here
    rw [childrenIn_concat_joined, eraseDups_concat, if_pos (mem_childrenIn.mpr present)]
  · rw [childrenIn_concat_of_ne fun key same => here ⟨key, same⟩]

end

/-! ## Arenas -/

namespace Assembly

/-- The entity and key of each instance. -/
def identities (a : Assembly) : List (Nat × Key) :=
  a.instances.map fun i => (i.entity, i.key)

variable {a : Assembly} {c : Nat} {key : Key} {id : ObjectId} {i : Instance}

theorem find?_eq_findIdx? (a : Assembly) (c : Nat) (key : Key) :
    a.find? c key = a.identities.findIdx? (· == (c, key)) := by
  unfold find? identities
  rw [List.findIdx?_map]
  rfl

theorem find?_eq_none_iff : a.find? c key = none ↔ (c, key) ∉ a.identities := by
  rw [find?_eq_findIdx?, List.findIdx?_eq_none_iff]
  constructor
  · exact fun h mem => absurd (h _ mem) (by simp)
  · intro absent p hp
    exact beq_false_of_ne fun same => absent (same ▸ hp)

theorem identity_of_find? (h : a.find? c key = some id) : a.identities[id]? = some (c, key) := by
  rw [find?_eq_findIdx?, List.findIdx?_eq_some_iff_getElem] at h
  obtain ⟨bound, same, -⟩ := h
  rw [List.getElem?_eq_getElem bound, eq_of_beq same]

theorem identity_of_instance (h : a.instances[id]? = some i) :
    a.identities[id]? = some (i.entity, i.key) := by
  unfold identities
  rw [List.getElem?_map, h]
  rfl

theorem instance_of_identity (h : a.identities[id]? = some (c, key)) :
    ∃ i, a.instances[id]? = some i ∧ i.entity = c ∧ i.key = key := by
  unfold identities at h
  rw [List.getElem?_map] at h
  obtain ⟨i, at_id, same⟩ := Option.map_eq_some_iff.mp h
  exact ⟨i, at_id, (Prod.mk.inj same).1, (Prod.mk.inj same).2⟩

theorem identities_add (a : Assembly) (i : Instance) :
    (a.add i).identities = a.identities ++ [(i.entity, i.key)] :=
  List.map_append

theorem identities_modify (a : Assembly) (id : ObjectId) (change : Object → Object) :
    (a.modify id change).identities = a.identities := by
  refine List.ext_getElem? fun j => ?_
  unfold identities modify
  rw [List.getElem?_map, List.getElem?_map, List.getElem?_modify]
  cases a.instances[j]? with
  | none => rfl
  | some i =>
    by_cases here : id = j
    · simp [here]
    · simp [here]

end Assembly

/-- Positions of instances of one entity list its keys. -/
def Lists (who : List (Nat × Key)) (ids : List ObjectId) (entity : Nat) (keys : List Key) : Prop :=
  ids.map (who[·]?) = keys.map fun key => some (entity, key)

namespace Lists

variable {who who' : List (Nat × Key)} {ids : List ObjectId} {entity : Nat} {keys : List Key}

theorem nil : Lists who [] entity [] := rfl

/-- New instances come behind those before them. -/
theorem grow (h : Lists who ids entity keys) (sub : who <+: who') : Lists who' ids entity keys := by
  obtain ⟨more, rfl⟩ := sub
  unfold Lists at h ⊢
  rw [← h]
  refine List.map_congr_left fun id mem => ?_
  have found : who[id]? ∈ keys.map fun key => some (entity, key) :=
    h ▸ List.mem_map.mpr ⟨id, mem, rfl⟩
  obtain ⟨key, -, same⟩ := List.mem_map.mp found
  rw [← same, List.getElem?_append_left (List.getElem?_eq_some_iff.mp same.symm).1, same]

theorem concat (h : Lists who ids entity keys) {id : ObjectId} {key : Key}
    (found : who[id]? = some (entity, key)) : Lists who (ids ++ [id]) entity (keys ++ [key]) := by
  unfold Lists at h ⊢
  rw [List.map_append, List.map_append, h, List.map_singleton, List.map_singleton, found]

end Lists

/-! ## Records -/

/-- An instance is one of an entity of the plan, and its type is that of its identity. -/
structure Instance.Sound (s : Schema) (type : Nat → Key → TypeModel) (es : List Entity)
    (i : Instance) : Prop where
  entity : ∃ e ∈ es, e.head.index = i.entity ∧ i.object.path = e.head.path
  described : s.Describes i.type
  type_eq : i.type = type i.entity i.key
  typeName : i.object.typeName = i.type.name

/-- A relation of an instance holds the children that a log has joined to it. -/
def HoldsJoined (who : List (Nat × Key)) (log : List Event) (x : Site) (i : Instance) : Prop :=
  ∃ ids, Lists who ids x.child.index (childrenIn log i.entity i.key x.child.index).eraseDups ∧
    Holds x.kind x.nested ids (i.object.at? x.path)

namespace HoldsJoined

variable {who who' : List (Nat × Key)} {log log' : List Event} {x : Site} {i : Instance}
  {child : ObjectId} {chain : List (String × String)}

/-- What is held stays held when new instances come, unless more is joined. -/
theorem grow (h : HoldsJoined who log x i) (sub : who <+: who')
    (same : (childrenIn log' i.entity i.key x.child.index).eraseDups =
      (childrenIn log i.entity i.key x.child.index).eraseDups) : HoldsJoined who' log' x i := by
  obtain ⟨ids, lists, holds⟩ := h
  exact ⟨ids, same ▸ lists.grow sub, holds⟩

/-- A child that is joined is held behind those before it. -/
theorem attached (h : HoldsJoined who log x i) {key : Key}
    (path : x.path = chain.map (·.1) ++ [x.field.name])
    (met : who[child]? = some (x.child.index, key))
    (new : .joined i.entity i.key x.child.index key ∉ log) :
    HoldsJoined who (log ++ [.joined i.entity i.key x.child.index key]) x
      { i with object := i.object.updateAt (Assembly.attach x.field.name x.kind child) chain } := by
  obtain ⟨ids, lists, holds⟩ := h
  refine ⟨ids ++ [child], ?_, ?_⟩
  · rw [childrenIn_concat_joined, eraseDups_concat, if_neg fun again => new (mem_childrenIn.mp again)]
    exact lists.concat met
  · rw [path, Object.at?_updateAt (Assembly.get?_attach _ _ _), ← path]
    exact holds.attached child

/-- A child that is joined over another relation is held elsewhere. -/
theorem attached_apart (h : HoldsJoined who log x i) {event : Event} {name : String}
    {kind : RelationKind} (apart : Apart (chain.map (·.1) ++ [name]) x.path)
    (other : ∀ key, event ≠ .joined i.entity i.key x.child.index key) :
    HoldsJoined who (log ++ [event]) x
      { i with object := i.object.updateAt (Assembly.attach name kind child) chain } := by
  obtain ⟨ids, lists, holds⟩ := h
  refine ⟨ids, ?_, ?_⟩
  · rw [childrenIn_concat_of_ne other]
    exact lists
  · rw [Object.at?_updateAt_of_apart (fun fields other ne => Assembly.get?_attach_of_ne ne _ _ _) apart]
    exact holds

end HoldsJoined

/-- An assembly of the entities of a plan records a log, where types belong to identities. -/
structure Records (s : Schema) (type : Nat → Key → TypeModel) (es : List Entity)
    (log : List Event) (a : Assembly) : Prop where
  arena : a.identities = (identitiesIn log).eraseDups
  sound : ∀ i ∈ a.instances, i.Sound s type es
  joined : ∀ {n k c k'}, .joined n k c k' ∈ log →
    (n, k) ∈ identitiesIn log ∧ (c, k') ∈ identitiesIn log
  links : ∀ l : Link, l ∈ a.links ↔ ∃ n k k', .joined n k l.entity k' ∈ log ∧
    a.identities[l.parent]? = some (n, k) ∧ a.identities[l.child]? = some (l.entity, k')
  holds : ∀ e ∈ es, ∀ x ∈ e.sites, ∀ i ∈ a.instances, i.entity = e.head.index →
    x.applies i.type = true → HoldsJoined a.identities log x i

namespace Records

variable {s : Schema} {type : Nat → Key → TypeModel} {root : Entity} {es : List Entity}
  {log : List Event} {a : Assembly}

/-- Nothing is recorded to begin with. -/
theorem start (s : Schema) (type : Nat → Key → TypeModel) (es : List Entity) :
    Records s type es [] {} := by
  constructor
  case arena => rfl
  case sound => exact fun _ h => absurd h List.not_mem_nil
  case joined => exact fun h => absurd h List.not_mem_nil
  case links =>
    refine fun l => ⟨fun h => absurd h List.not_mem_nil, ?_⟩
    rintro ⟨_, _, _, h, -⟩
    exact absurd h List.not_mem_nil
  case holds => exact fun _ _ _ _ _ h => absurd h List.not_mem_nil

theorem distinct (h : Records s type es log a) : a.identities.Nodup :=
  h.arena ▸ nodup_eraseDups _

theorem mem_identities (h : Records s type es log a) {p : Nat × Key} :
    p ∈ a.identities ↔ p ∈ identitiesIn log := by
  rw [h.arena]
  exact List.mem_eraseDups

/-- The types of the instances are described. -/
theorem describes (h : Records s type es log a) {id : ObjectId} {n : Nat} {key : Key}
    (found : a.identities[id]? = some (n, key)) : s.Describes (type n key) := by
  obtain ⟨i, at_id, rfl, rfl⟩ := Assembly.instance_of_identity found
  have sound := h.sound i (List.mem_of_getElem? at_id)
  exact sound.type_eq ▸ sound.described

/-- An identity has one position. -/
theorem position_unique (h : Records s type es log a) {id id' : ObjectId} {p : Nat × Key}
    (found : a.identities[id]? = some p) (found' : a.identities[id']? = some p) : id = id' :=
  (List.getElem?_inj (List.getElem?_eq_some_iff.mp found).1 h.distinct).mp (found.trans found'.symm)

/-! ## Steps -/

/-- **What happens again changes nothing.** -/
theorem again (h : Records s type es log a) {event : Event} (present : event ∈ log) :
    Records s type es (log ++ [event]) a := by
  have same : ∀ {event'}, event' ∈ log ++ [event] ↔ event' ∈ log := fun {event'} => by
    rw [List.mem_append, List.mem_singleton, or_iff_left_of_imp fun again => again ▸ present]
  have known : ∀ {p}, p ∈ identitiesIn log → p ∈ identitiesIn (log ++ [event]) := fun mem => by
    rw [identitiesIn_append]
    exact List.mem_append_left _ mem
  constructor
  case arena =>
    rw [h.arena, identitiesIn_append]
    cases event with
    | met c key =>
      show _ = (identitiesIn log ++ [(c, key)]).eraseDups
      rw [eraseDups_concat, if_pos (mem_identitiesIn.mpr present)]
    | joined => exact (congrArg _ (List.append_nil _)).symm
  case sound => exact h.sound
  case joined => exact fun mem => (h.joined (same.mp mem)).imp known known
  case links =>
    intro l
    simp only [h.links l, same]
  case holds =>
    intro e he x hx i hi entity applies
    exact (h.holds e he x hx i hi entity applies).grow List.prefix_rfl
      (eraseDups_childrenIn_concat present)

/-- **Meeting a new instance adds it.** -/
theorem add (h : Records s type es log a) (wired : Wired s root es) {e : Entity} (he : e ∈ es)
    {row : Row} {key : Key}
    {i : Instance} (created : Created e row key i) (described : s.Describes i.type)
    (type_eq : i.type = type e.head.index key) (absent : a.find? e.head.index key = none) :
    Records s type es (log ++ [.met e.head.index key]) (a.add i) := by
  have unknown : (e.head.index, key) ∉ identitiesIn log := fun known =>
    Assembly.find?_eq_none_iff.mp absent (h.mem_identities.mpr known)
  have grown : identitiesIn (log ++ [.met e.head.index key]) =
      identitiesIn log ++ [(e.head.index, key)] :=
    identitiesIn_append _ _
  have joins : ∀ {n k c k'}, .joined n k c k' ∈ log ++ [.met e.head.index key] ↔
      .joined n k c k' ∈ log := by
    simp
  have who : (a.add i).identities = a.identities ++ [(e.head.index, key)] := by
    rw [Assembly.identities_add, created.entity, created.key]
  have arena : (a.add i).identities = (identitiesIn (log ++ [.met e.head.index key])).eraseDups := by
    rw [who, h.arena, grown, eraseDups_concat, if_neg unknown]
  have sub : a.identities <+: (a.add i).identities := who ▸ List.prefix_append _ _
  have distinct : (a.identities ++ [(e.head.index, key)]).Nodup := by
    rw [← who, arena]
    exact nodup_eraseDups _
  have kept : ∀ {p : Nat × Key} {id : ObjectId}, p ∈ identitiesIn log →
      ((a.add i).identities[id]? = some p ↔ a.identities[id]? = some p) := fun known =>
    who ▸ getElem?_concat_iff distinct (h.mem_identities.mpr known)
  constructor
  case arena => exact arena
  case sound =>
    intro j hj
    rcases List.mem_append.mp hj with old | new
    · exact h.sound j old
    · obtain rfl := List.mem_singleton.mp new
      exact ⟨⟨e, he, created.entity.symm, created.path⟩, described,
        by rw [type_eq, created.entity, created.key], created.typeName⟩
  case joined =>
    intro n k c k' mem
    rw [grown]
    exact (h.joined (joins.mp mem)).imp (List.mem_append_left _) (List.mem_append_left _)
  case links =>
    intro l
    rw [show (a.add i).links = a.links from rfl, h.links l]
    refine exists_congr fun n => exists_congr fun k => exists_congr fun k' => ?_
    rw [joins]
    refine and_congr_right fun mem => ?_
    rw [kept (h.joined mem).1, kept (h.joined mem).2]
  case holds =>
    intro e' he' x hx j hj entity applies
    rcases List.mem_append.mp hj with old | new
    · exact (h.holds e' he' x hx j old entity applies).grow sub (by rw [childrenIn_concat_met])
    · obtain rfl := List.mem_singleton.mp new
      obtain rfl := wired.eq_of_index he he' (created.entity.symm.trans entity)
      have none : childrenIn log j.entity j.key x.child.index = [] := by
        refine List.eq_nil_iff_forall_not_mem.mpr fun k' mem => unknown ?_
        rw [created.entity, created.key] at mem
        exact (h.joined (mem_childrenIn.mp mem)).1
      refine ⟨[], ?_, created.empty x hx applies⟩
      rw [childrenIn_concat_met, none]
      exact Lists.nil

end Records

namespace Assembly

variable {a : Assembly} {o : Owner} {f : FieldModel} {kind : RelationKind} {entity : Nat}
  {child : ObjectId}

theorem connect_of_mem (h : (⟨o.id, entity, child⟩ : Link) ∈ a.links) :
    a.connect o f kind entity child = a := by
  unfold connect
  exact if_pos (List.contains_iff_mem.mpr h)

theorem connect_of_not_mem (h : (⟨o.id, entity, child⟩ : Link) ∉ a.links) :
    a.connect o f kind entity child =
      modify { a with links := a.links ++ [⟨o.id, entity, child⟩] } o.id
        (·.updateAt (attach f.name kind child) o.chain) := by
  unfold connect
  exact if_neg fun present => h (List.contains_iff_mem.mp present)

/-- Linking makes no instances. -/
theorem identities_connect (a : Assembly) (o : Owner) (f : FieldModel) (kind : RelationKind)
    (entity : Nat) (child : ObjectId) : (a.connect o f kind entity child).identities = a.identities := by
  by_cases present : (⟨o.id, entity, child⟩ : Link) ∈ a.links
  · rw [connect_of_mem present]
  · rw [connect_of_not_mem present, identities_modify]
    rfl

/-- Modifying an object leaves every other instance as it is. -/
theorem mem_instances_modify {id : ObjectId} {change : Object → Object} {i : Instance}
    (h : i ∈ (a.modify id change).instances) :
    ∃ at_ j, a.instances[at_]? = some j ∧
      i = if id = at_ then { j with object := change j.object } else j := by
  obtain ⟨at_, found⟩ := List.mem_iff_getElem?.mp h
  unfold modify at found
  rw [List.getElem?_modify] at found
  obtain ⟨j, at_j, rfl⟩ := Option.map_eq_some_iff.mp found
  refine ⟨at_, j, at_j, ?_⟩
  by_cases here : id = at_
  · simp [here]
  · simp [here]

end Assembly

namespace Records

variable {s : Schema} {type : Nat → Key → TypeModel} {root : Entity} {es : List Entity}
  {log : List Event} {a : Assembly}

/-- A link is added together with the event that joins its child. -/
theorem links_joined (h : Records s type es log a) {id child : ObjectId} {n c : Nat}
    {key childKey : Key} (owner : a.identities[id]? = some (n, key))
    (met : a.identities[child]? = some (c, childKey)) (l : Link) :
    l ∈ a.links ++ [⟨id, c, child⟩] ↔
      ∃ m k k', .joined m k l.entity k' ∈ log ++ [.joined n key c childKey] ∧
        a.identities[l.parent]? = some (m, k) ∧ a.identities[l.child]? = some (l.entity, k') := by
  rw [List.mem_append, h.links l, List.mem_singleton]
  constructor
  · rintro (⟨m, k, k', mem, rest⟩ | rfl)
    · exact ⟨m, k, k', List.mem_append_left _ mem, rest⟩
    · exact ⟨_, _, _, List.mem_append_right _ List.mem_cons_self, owner, met⟩
  · rintro ⟨m, k, k', mem, parent, found⟩
    rcases List.mem_append.mp mem with old | new
    · exact .inl ⟨m, k, k', old, parent, found⟩
    · obtain ⟨rfl, rfl, entity, rfl⟩ := Event.joined.inj (List.mem_singleton.mp new)
      rw [entity] at found
      refine .inr ?_
      -- identities are distinct, so the link is between the same two instances
      obtain ⟨p, e, q⟩ := l
      obtain rfl := h.position_unique parent owner
      obtain rfl := h.position_unique found met
      obtain rfl := entity
      rfl

/-- The owner of a child that is joined to it over one of its relations holds it there, and its other
relations, which are apart, hold what they held. -/
theorem holds_owner (h : Records s type es log a) (wired : Wired s root es) {e : Entity} (he : e ∈ es)
    {x y : Site} (hx : x ∈ e.sites) (hy : y ∈ e.sites) {chain : List (String × String)}
    (along : chain.map (·.1) = x.chain.map (·.1.name)) {key childKey : Key} {child : ObjectId}
    (apart : ∀ y ∈ e.sites, y.applies (type e.head.index key) = true → x ≠ y → Apart x.path y.path)
    (met : a.identities[child]? = some (x.child.index, childKey))
    (absent : .joined e.head.index key x.child.index childKey ∉ log) {j : Instance}
    (mem : j ∈ a.instances) (entity : j.entity = e.head.index) (same_key : j.key = key)
    (own : y.applies j.type = true) :
    HoldsJoined a.identities (log ++ [.joined e.head.index key x.child.index childKey]) y
      { j with object := j.object.updateAt (Assembly.attach x.field.name x.kind child) chain } := by
  have path : x.path = chain.map (·.1) ++ [x.field.name] := by rw [Site.path, along]
  have held := h.holds e he y hy j mem entity own
  by_cases same : y = x
  · subst same
    rw [← entity, ← same_key] at absent ⊢
    exact held.attached path met absent
  · have own_y : y.applies (type e.head.index key) = true := by
      rw [← entity, ← same_key, ← (h.sound j mem).type_eq]
      exact own
    refine held.attached_apart (path ▸ apart y hy own_y (Ne.symm same)) fun k' eq => ?_
    exact same (wired.parent e he y hy e he x hx (Event.joined.inj eq).2.2.1.symm).2

/-- Any other instance holds what it held. -/
theorem holds_other (h : Records s type es log a) {n c : Nat} {key childKey : Key} {owner at_ : ObjectId}
    (at_owner : a.identities[owner]? = some (n, key)) (other : ¬ owner = at_) {e : Entity} (he : e ∈ es)
    {y : Site} (hy : y ∈ e.sites) {j : Instance} (at_j : a.instances[at_]? = some j)
    (entity : j.entity = e.head.index) (own : y.applies j.type = true) :
    HoldsJoined a.identities (log ++ [.joined n key c childKey]) y j := by
  refine (h.holds e he y hy j (List.mem_of_getElem? at_j) entity own).grow List.prefix_rfl ?_
  rw [childrenIn_concat_of_ne fun k' eq => ?_]
  obtain ⟨same, same_key, -⟩ := Event.joined.inj eq
  have identity := Assembly.identity_of_instance at_j
  rw [← same, ← same_key] at identity
  exact other (h.position_unique at_owner identity)

/-- **Joining a child links it to its owner**, where no other relation of the owner's type lies inside this
one or around it. -/
theorem connect (h : Records s type es log a) (wired : Wired s root es)
    {e : Entity} (he : e ∈ es) {x : Site} (hx : x ∈ e.sites) {o : Assembly.Owner}
    (chain : o.chain.map (·.1) = x.chain.map (·.1.name)) {key childKey : Key} {child : ObjectId}
    (apart : ∀ y ∈ e.sites, y.applies (type e.head.index key) = true → x ≠ y → Apart x.path y.path)
    (owner : a.identities[o.id]? = some (e.head.index, key))
    (met : a.identities[child]? = some (x.child.index, childKey)) :
    Records s type es (log ++ [.joined e.head.index key x.child.index childKey])
      (a.connect o x.field x.kind x.child.index child) := by
  by_cases present : (⟨o.id, x.child.index, child⟩ : Link) ∈ a.links
  · rw [Assembly.connect_of_mem present]
    obtain ⟨n, k, k', mem, parent, found⟩ := (h.links _).mp present
    rw [owner] at parent
    rw [met] at found
    cases parent
    cases found
    exact h.again mem
  · rw [Assembly.connect_of_not_mem present]
    set event : Event := .joined e.head.index key x.child.index childKey
    have absent : event ∉ log := fun mem => present ((h.links _).mpr ⟨_, _, _, mem, owner, met⟩)
    have grown : identitiesIn (log ++ [event]) = identitiesIn log := by
      rw [identitiesIn_append]
      exact List.append_nil _
    have who : ∀ links change, (Assembly.modify { a with links := links } o.id change).identities =
        a.identities := fun links change => Assembly.identities_modify _ _ _
    constructor
    case arena => rw [who, h.arena, grown]
    case sound =>
      intro i hi
      obtain ⟨at_, j, at_j, rfl⟩ := Assembly.mem_instances_modify hi
      have sound := h.sound j (List.mem_of_getElem? at_j)
      split
      · exact ⟨by simpa using sound.entity, sound.described, sound.type_eq, by simpa using sound.typeName⟩
      · exact sound
    case joined =>
      intro n k c k' mem
      rw [grown]
      rcases List.mem_append.mp mem with old | new
      · exact h.joined old
      · obtain ⟨rfl, rfl, rfl, rfl⟩ := Event.joined.inj (List.mem_singleton.mp new)
        exact ⟨h.mem_identities.mp (List.mem_of_getElem? owner),
          h.mem_identities.mp (List.mem_of_getElem? met)⟩
    case links =>
      rw [who]
      exact h.links_joined owner met
    case holds =>
      intro e' he' y hy i hi entity own
      rw [who]
      obtain ⟨at_, j, at_j, rfl⟩ := Assembly.mem_instances_modify hi
      by_cases here : o.id = at_
      · rw [if_pos here] at entity own ⊢
        have identity := Assembly.identity_of_instance at_j
        obtain ⟨same, same_key⟩ := Prod.mk.inj (Option.some.inj (identity.symm.trans (here ▸ owner)))
        obtain rfl := wired.eq_of_index he' he (entity.symm.trans same)
        exact h.holds_owner wired he hx hy chain apart met absent (List.mem_of_getElem? at_j) same
          same_key own
      · rw [if_neg here] at entity own ⊢
        exact h.holds_other owner here he' hy at_j entity own

end Records

end Orm
