import Orm.Proofs.Assembly.Filling
import Orm.Proofs.Assembly.Recording
import Orm.Proofs.Assembly.Settling
import Orm.Proofs.Plan.Embedding

/-!
# `Proofs.Assembly.ValueObjects` — which value objects there are

A value object comes about in two ways. The row that makes an object fills it, or a child is linked to a
relation in it, and then it is made on the way, whatever the row had there. Which of the two it was, and in
which order the rows came, cannot be told from the graph: a value object is there if there is something in
it, a value or a child, and not otherwise. To make it late changes nothing but the relation that it was
made for.

## Contents
- **Links.** `Members.Plain.chain_through`, `Object.hasValue_linked_iff`, `Instance.History.hasValue_iff`.
- **Settling.** `Slot.Same`, `exists_map_settle`, `hasValue_settled_iff`, `at?_settled_congr`.
- **Children.** `Site.LinkedIn`, `Site.applies_of_valueChain`.
- **Coverage.** `Entity.Walked.covers`.
- **Main result.** `Plan.materialize_value_objects`.
-/

namespace Orm

open Schema Plan Assembly

/-! ## Links -/

/-- **Where a chain and the path of a relation lead through one another, the relation lies behind the
chain.** -/
theorem Plan.Members.Plain.chain_through {s : Schema} {t : TypeModel} {applies : FieldModel → Bool}
    {m : Members} {fs : List FieldModel} (leads : s.ValueChain t fs) (plain : m.Plain s t applies)
    {x : Site} (hx : x ∈ m.sites []) (own : applies x.gate = true)
    (sub : x.path <+: fs.map (·.name) ∨ fs.map (·.name) <+: x.path) : fs <+: x.chain.map (·.1) := by
  induction leads generalizing m applies x with
  | here mem cls =>
    obtain ⟨distinct, -, relations, embeddeds, -, -⟩ := plain
    rcases mem_sites_iff.mp hx with ⟨r, hr, rfl⟩ | ⟨v, hv, y, hy, rfl⟩
    · obtain ⟨mem_r, relation, -⟩ := relations r hr own
      rw [distinct.eq_of_name_eq mem_r mem (heads_eq_of_through sub).1, not_relation_of_embedded cls] at relation
      cases relation
    · obtain rfl := distinct.eq_of_name_eq (embeddeds v hv own) mem (heads_eq_of_through sub).1
      exact List.cons_prefix_cons.mpr ⟨rfl, List.nil_prefix⟩
  | inside mem cls describes _ ih =>
    obtain ⟨distinct, -, relations, embeddeds, described, inside⟩ := plain
    rcases mem_sites_iff.mp hx with ⟨r, hr, rfl⟩ | ⟨v, hv, y, hy, rfl⟩
    · obtain ⟨mem_r, relation, -⟩ := relations r hr own
      rw [distinct.eq_of_name_eq mem_r mem (heads_eq_of_through sub).1, not_relation_of_embedded cls] at relation
      cases relation
    · obtain ⟨names, tails⟩ := heads_eq_of_through sub
      obtain rfl := distinct.eq_of_name_eq (embeddeds v hv own) mem names
      obtain ⟨name, cls', describes'⟩ := described v hv
      cases cls.symm.trans cls'
      cases describes.symm.trans describes'
      exact List.cons_prefix_cons.mpr ⟨rfl, ih (inside v hv) hy rfl tails⟩

namespace Object

variable {o : Object} {x : Site} {child : ObjectId} {q : List String}

/-- There are value objects all along a chain that was followed for a change. -/
theorem hasValue_updateAt (change : Fields → Fields) {steps : List (String × String)} (some_field : q ≠ [])
    (sub : q <+: steps.map (·.1)) (o : Object) : (o.updateAt change steps).HasValue q := by
  induction steps generalizing o q with
  | nil => exact absurd (List.prefix_nil.mp sub) some_field
  | cons step rest ih =>
    obtain ⟨field, typeName⟩ := step
    obtain ⟨first, more, rfl⟩ := List.exists_cons_of_ne_nil some_field
    obtain ⟨rfl, tail⟩ := List.cons_prefix_cons.mp sub
    let inner := (o.embedded? first).getD (.empty typeName o.path)
    cases more with
    | nil =>
      refine ⟨inner.updateAt change rest, ?_⟩
      show (o.set first _).get? first = _
      rw [get?_set, if_pos rfl]
    | cons second deeper =>
      have below : (inner.updateAt change rest).HasValue (second :: deeper) :=
        ih (List.cons_ne_nil _ _) tail inner
      obtain ⟨found, at_found⟩ := below
      refine ⟨found, ?_⟩
      rw [at?_cons _ (List.cons_ne_nil _ _)]
      show ((o.set first _).embedded? first).bind _ = _
      rw [embedded?_set, if_pos rfl]
      exact at_found

/-- **Linking a child makes the value objects on its way, and no others.** -/
theorem hasValue_linked_iff (some_field : q ≠ []) (outside : ¬ x.path <+: q) :
    (o.linked x child).HasValue q ↔ o.HasValue q ∨ q <+: x.steps.map (·.1) := by
  by_cases sub : q <+: x.steps.map (·.1)
  · exact iff_of_true (hasValue_updateAt _ some_field sub o) (.inr sub)
  · have apart : Apart x.path q := by
      refine ⟨outside, fun inside => ?_⟩
      rw [Site.path_eq, List.prefix_concat_iff] at inside
      rcases inside with same | inside
      · exact outside (same ▸ x.path_eq ▸ List.prefix_rfl)
      · exact sub inside
    unfold HasValue
    rw [at?_linked_of_apart apart, or_iff_left sub]

end Object

/-- The names along a relation's chain. -/
theorem Plan.Site.map_steps (x : Site) : x.steps.map (·.1) = (x.chain.map (·.1)).map (·.name) := by
  unfold steps
  rw [List.map_map, List.map_map]
  rfl

namespace Instance.History

variable {s : Schema} {e : Entity} {row : Row} {links : List (Site × ObjectId)} {i : Instance}

/-- **An object has a value object just if the row filled it or a child was linked to a relation in it.** -/
theorem hasValue_iff (h : i.History s e row links) (walked : e.Walked s)
    (named : ∀ u, e.Makes s u → u.Distinct) {fs : List FieldModel} (leads : s.ValueChain i.type fs) :
    i.object.HasValue (fs.map (·.name)) ↔
      (∃ c ∈ e.cells, fs <+: c.chain ∧ row.Fills c.label) ∨
        ∃ l ∈ links, fs <+: l.1.chain.map (·.1) := by
  have type_eq := h.type_eq
  obtain ⟨⟨new, created, replayed⟩, sites⟩ := h
  rw [type_eq] at leads sites
  have plain := walked.plain named row
  have some_field : fs.map (·.name) ≠ [] := mt List.map_eq_nil_iff.mp leads.ne_nil
  have fresh : new.HasValue (fs.map (·.name)) ↔ ∃ c ∈ e.cells, fs <+: c.chain ∧ row.Fills c.label := by
    obtain ⟨populated, whole⟩ := populated_of_create created
    have once : e.head.declared.allFields.Nodup := by
      obtain ⟨below, descend, -⟩ := walked.typeOf_mem
      exact (named _ (.inr ⟨below, descend, List.mem_cons_self⟩)).of_map
    rw [show new = _ from whole]
    exact populated.hasValue_iff leads plain (walked.uniform once) fun f hf =>
      isA_of_mem_allFields (walked.describes_typeOf row) hf
  rw [replayed, ← fresh]
  clear created replayed fresh
  induction links using List.reverseRecOn with
  | nil => exact (or_iff_left fun ⟨_, hl, _⟩ => List.not_mem_nil hl).symm
  | append_singleton links l ih =>
    have before : (new.replay links).HasValue (fs.map (·.name)) ↔ new.HasValue (fs.map (·.name)) ∨
        ∃ l ∈ links, fs <+: l.1.chain.map (·.1) := ih fun l' hl => sites l' (List.mem_append_left _ hl)
    obtain ⟨hx, own⟩ := sites l (List.mem_append_right _ List.mem_cons_self)
    have outside : ¬ l.1.path <+: fs.map (·.name) := fun sub => by
      have shorter := (plain.chain_through leads hx own (.inl sub)).length_le
      have longer := sub.length_le
      rw [Site.path, List.length_append, List.length_map, List.length_singleton, List.length_map] at longer
      rw [List.length_map] at shorter
      omega
    have behind : fs.map (·.name) <+: l.1.steps.map (·.1) ↔ fs <+: l.1.chain.map (·.1) := by
      rw [Site.map_steps]
      refine ⟨fun sub => plain.chain_through leads hx own (.inr ?_), fun sub => sub.map _⟩
      rw [Site.path_eq, Site.map_steps]
      exact sub.trans (List.prefix_append _ _)
    rw [Object.replay_concat, Object.hasValue_linked_iff some_field outside, before, behind, or_assoc]
    simp only [List.mem_append, List.mem_singleton, or_and_right, exists_or, exists_eq_left]

end Instance.History

/-! ## Settling -/

/-- A change of slots makes and removes no value objects. -/
def Slot.Same (g : Slot → Slot) : Prop :=
  ∀ slot, (∃ o, g slot = .embedded o) ↔ ∃ o, slot = .embedded o

/-- A slot with its value object changed; a slot without one stays. -/
def Slot.mapValue (change : Object → Object) : Slot → Slot
  | .embedded o => .embedded (change o)
  | slot => slot

namespace Slot.Same

theorem id : Slot.Same id := fun _ => Iff.rfl

theorem settled : Slot.Same Slot.settled := by
  intro slot
  cases slot with
  | embedded o => exact Iff.rfl
  | leaf content => cases content <;> exact iff_of_false nofun nofun

theorem mapValue (change : Object → Object) : Slot.Same (Slot.mapValue change) := by
  intro slot
  cases slot with
  | embedded o => exact iff_of_true ⟨_, rfl⟩ ⟨_, rfl⟩
  | leaf content => exact Iff.rfl

theorem comp {f g : Slot → Slot} (hf : Slot.Same f) (hg : Slot.Same g) : Slot.Same (f ∘ g) :=
  fun slot => (hf (g slot)).trans (hg slot)

theorem hasValue_iff {g : Slot → Slot} (h : Slot.Same g) {o o' : Object} {q : List String}
    (changed : o'.at? q = (o.at? q).map g) : o'.HasValue q ↔ o.HasValue q := by
  unfold Object.HasValue
  rw [changed]
  cases o.at? q with
  | none => exact iff_of_false nofun nofun
  | some slot =>
    simp only [Option.map_some, Option.some.injEq]
    exact h slot

end Slot.Same

/-- Settling a path settles the rest of it in the value objects on the way. -/
theorem at?_settle_append {q rest : List String} (some_field : q ≠ []) (deeper : rest ≠ []) (o : Object) :
    (o.settle (q ++ rest)).at? q = (o.at? q).map (Slot.mapValue (·.settle rest)) := by
  obtain ⟨next, chain, rfl⟩ := List.exists_cons_of_ne_nil deeper
  induction q generalizing o with
  | nil => exact absurd rfl some_field
  | cons first more ih =>
    cases more with
    | nil =>
      show (o.settle (first :: next :: chain)).get? first = (o.get? first).map _
      cases found : o.embedded? first with
      | some inner =>
        simp only [Object.settle, found]
        rw [Object.get?_set, if_pos rfl, Object.get?_of_embedded? found]
        rfl
      | none =>
        simp only [Object.settle, found]
        cases here : o.get? first with
        | none => rfl
        | some slot =>
          cases slot with
          | leaf content => rfl
          | embedded inner =>
            have nested := Object.embedded?_of_get? here
            cases nested.symm.trans found
    | cons second more =>
      show (o.settle (first :: second :: (more ++ next :: chain))).at? _ = _
      rw [Object.at?_cons _ (List.cons_ne_nil _ _), Object.at?_cons _ (List.cons_ne_nil _ _)]
      cases found : o.embedded? first with
      | some inner =>
        simp only [Object.settle, found]
        rw [Object.embedded?_set, if_pos rfl]
        exact ih (List.cons_ne_nil _ _) inner
      | none =>
        simp only [Object.settle, found]
        rfl

/-- **What settling does to the content at a path depends on that content alone**, and it makes and removes
no value objects. -/
theorem exists_map_settle (chain : List String) {q : List String} (some_field : q ≠ []) :
    ∃ g, Slot.Same g ∧ ∀ o : Object, (o.settle chain).at? q = (o.at? q).map g := by
  by_cases on : q <+: chain
  · obtain ⟨rest, rfl⟩ := on
    cases rest with
    | nil => exact ⟨_, .settled, fun o => (List.append_nil q).symm ▸ at?_settle_self q o⟩
    | cons next rest => exact ⟨_, .mapValue _, at?_settle_append some_field (List.cons_ne_nil _ _)⟩
  · exact ⟨id, .id, fun o => (at?_settle_of_not_along on).trans Option.map_id'.symm⟩

/-- Settling several paths does the same at a path, whatever the object. -/
theorem exists_map_foldl_settle (chains : List (List String)) {q : List String} (some_field : q ≠ []) :
    ∃ g, Slot.Same g ∧ ∀ o : Object,
      (chains.foldl (fun o chain => o.settle chain) o).at? q = (o.at? q).map g := by
  induction chains with
  | nil => exact ⟨id, .id, fun o => Option.map_id'.symm⟩
  | cons chain rest ih =>
    obtain ⟨first, same, at_first⟩ := exists_map_settle chain some_field
    obtain ⟨later, same', at_later⟩ := ih
    refine ⟨later ∘ first, same'.comp same, fun o => ?_⟩
    rw [List.foldl_cons, at_later, at_first, Option.map_map]

/-- Settling makes and removes no value objects. -/
theorem hasValue_settled_iff (i : Instance) {q : List String} (some_field : q ≠ []) :
    (settled i).HasValue q ↔ i.object.HasValue q := by
  obtain ⟨g, same, changed⟩ := exists_map_foldl_settle i.arrays some_field
  exact same.hasValue_iff (changed i.object)

/-- Where two instances agree before they are settled, they agree after. -/
theorem at?_settled_congr {i : Instance} {new : Object} {q : List String}
    (same : i.object.at? q = new.at? q) : (settled i).at? q = (settled { i with object := new }).at? q := by
  by_cases some_field : q = []
  · rw [some_field]
    rfl
  · obtain ⟨g, -, changed⟩ := exists_map_foldl_settle i.arrays some_field
    exact (changed i.object).trans ((congrArg _ same).trans (changed new).symm)

/-! ## Children -/

/-- A relation that shows some objects holds them. -/
theorem Shows.outright {kind : RelationKind} {nested : Bool} {ids : List ObjectId} {slot : Option Slot}
    (h : Shows kind nested ids slot) (some_id : ids ≠ []) : Shows kind false ids slot := by
  cases kind with
  | toOne => exact h
  | toManyDirect | toManyLinked =>
    rcases h with list | array | ⟨-, none, -⟩
    · exact .inl list
    · exact .inr (.inl array)
    · exact absurd none some_id

/-- Some row links a child to the owner with a key over a relation. -/
def Plan.Site.LinkedIn (x : Site) (rows : List Row) (ownerAt : Row → Option Key) (key : Key) : Prop :=
  ∃ row ∈ rows, ownerAt row = some key ∧ ∃ child, keyOf? x.child x.inner row = some child

namespace Plan.Site

variable {x : Site} {rows : List Row} {ownerAt : Row → Option Key} {key : Key}

theorem linkedIn_iff : x.LinkedIn rows ownerAt key ↔
    (rows.filter fun row => ownerAt row == some key).filterMap (keyOf? x.child x.inner) ≠ [] := by
  constructor
  · rintro ⟨row, hr, owner, child, at_child⟩
    have kept : row ∈ rows.filter fun row => ownerAt row == some key :=
      List.mem_filter.mpr ⟨hr, beq_iff_eq.mpr owner⟩
    exact List.ne_nil_of_mem (List.mem_filterMap.mpr ⟨row, kept, at_child⟩)
  · intro some_child
    obtain ⟨child, mem⟩ := List.exists_mem_of_ne_nil _ some_child
    obtain ⟨row, kept, at_child⟩ := List.mem_filterMap.mp mem
    obtain ⟨hr, owner⟩ := List.mem_filter.mp kept
    exact ⟨row, hr, beq_iff_eq.mp owner, child, at_child⟩

theorem LinkedIn.childKeys_ne_nil (h : x.LinkedIn rows ownerAt key) :
    x.childKeys rows ownerAt key ≠ [] := by
  obtain ⟨child, mem⟩ := List.exists_mem_of_ne_nil _ (linkedIn_iff.mp h)
  exact List.ne_nil_of_mem (List.mem_eraseDups.mpr mem)

/-- A relation that lies behind a chain of value objects of a type belongs to the type. -/
theorem applies_of_valueChain {s : Schema} {t : TypeModel} {fs : List FieldModel}
    (described : s.Describes t) (leads : s.ValueChain t fs) (sub : fs <+: x.chain.map (·.1)) :
    x.applies t = true := by
  obtain ⟨f, rest, rfl, mem⟩ : ∃ f rest, fs = f :: rest ∧ f ∈ t.allFields := by
    cases leads with
    | here mem | inside mem => exact ⟨_, _, rfl, mem⟩
  have gate : x.gate = f := by
    unfold Site.gate
    cases chain : x.chain with
    | nil =>
      rw [chain] at sub
      exact absurd (List.prefix_nil.mp sub) (List.cons_ne_nil _ _)
    | cons step more =>
      rw [chain] at sub
      exact (List.cons_prefix_cons.mp sub).1.symm
  unfold Site.applies
  rw [gate]
  exact isA_of_mem_allFields described mem

end Plan.Site

/-! ## Coverage -/

/-- **An entity reads all values behind a chain, and leads to all relations there**, in objects of any type
that its rows tell. -/
theorem Plan.Entity.Walked.covers {s : Schema} {e : Entity} (walked : e.Walked s) (row : Row)
    {v : FieldModel × TypeModel} {chain : List (FieldModel × TypeModel)} {inner : List FieldModel}
    (embeds : s.Embeds (typeOf e.head row).allFields (v :: chain) inner) {f : FieldModel}
    (hf : f ∈ inner) (stored : f.transient = false) :
    (f.isSingle = true → ∃ c ∈ e.cells, c.chain = (v :: chain).map (·.1) ∧ c.field = f) ∧
      (f.isRelation = true → ∃ x ∈ e.sites, x.chain = v :: chain ∧ x.field = f) := by
  obtain ⟨below, descend, told⟩ := walked.typeOf_mem
  obtain @⟨name, target, layout, path, _, _, _, _, _, members, _, describes, lays, walk⟩ := walked
  obtain ⟨below', family⟩ := family_of_layout ⟨name, describes⟩ lays
  obtain rfl := Except.ok.inj (family.descendants.symm.trans descend)
  cases embeds with
  | inside mem kept cls describes rest =>
    -- the first field lies in some level, and the walk of the level has all that is behind it
    obtain ⟨level, hl, inLevel⟩ := family.covers _ (told row) _ mem
    obtain ⟨p, hp, rfl⟩ := exists_placed path hl
    cases walk with
    | entity _ _ walk =>
      obtain ⟨_, _, _, _, fields, outer⟩ := walk.exists_level hp
      obtain ⟨_, here, _, _, field, deeper⟩ :=
        fields.exists_along (.inside inLevel kept cls describes rest) hf stored []
      have part := deeper.trans outer
      constructor
      · intro single
        obtain rfl := field.of_single single
        exact ⟨_, part.cells List.mem_cons_self, rfl, rfl⟩
      · intro relation
        obtain ⟨child, inner, rfl⟩ := field.of_relation relation
        exact ⟨_, part.sites List.mem_cons_self, rfl, rfl⟩

/-! ## Main result -/

/-- **Value objects are there just if there is something in them.** Each object of a graph stands for an
entity and key, and was made of the first row that reaches them. In the graph it has a value object just if
that row fills a value in it, however deep, or if some row links a child to a relation in it. A relation
that children are linked to holds them all, each once, in the order of the first row, or it refers to the
first. All that lies apart from such relations is as the row made it, be value objects made for them or
not. Every value that is stored and every relation counts, however deep it lies. -/
theorem Plan.materialize_value_objects {s : Schema} {name : String} {p : Plan}
    {rows : List (Except Error Row)} {g : Graph} (built : Plan.build s name = .ok p)
    (named : p.NamesFields s) (made : p.materialize s rows = .ok g) :
    ∃ root good who, p.root = some root ∧ rows = good.map .ok ∧ g.Depicts root good who ∧
      ∀ id o, g.get? id = some o → ∃ e key keyAt row i, who[id]? = some (e, key) ∧
        Reaches root good e keyAt ∧ (good.find? fun row => keyAt row == some key) = some row ∧
        create s row e.head e.members key = .ok i ∧
        (∀ fs, s.ValueChain i.type fs → (o.HasValue (fs.map (·.name)) ↔
          (∃ c ∈ e.cells, fs <+: c.chain ∧ row.Fills c.label) ∨
            ∃ x ∈ e.sites, fs <+: x.chain.map (·.1) ∧ x.LinkedIn good keyAt key)) ∧
        (∀ x ∈ e.sites, x.applies i.type = true → x.LinkedIn good keyAt key →
          ∃ ids, ids.map (who[·]?) =
              (x.childKeys good keyAt key).map (fun child => some (x.entity, child)) ∧
            Shows x.kind false ids (o.at? x.path)) ∧
        (∀ q, (∀ x ∈ e.sites, x.applies i.type = true → x.LinkedIn good keyAt key → Apart x.path q) →
          o.at? q = (settled i).at? q) ∧
        ∀ v chain inner, s.Embeds i.type.allFields (v :: chain) inner →
          ∀ f ∈ inner, f.transient = false →
            (f.isSingle = true → ∃ c ∈ e.cells, c.chain = (v :: chain).map (·.1) ∧ c.field = f) ∧
            (f.isRelation = true → ∃ x ∈ e.sites, x.chain = v :: chain ∧ x.field = f) := by
  obtain ⟨root, good, a, keys, types, has_root, rfl, rfl, wired, tells, records, remembers⟩ :=
    Plan.recorded_of_materialize built named made
  have depicts := records.depicts wired tells
  refine ⟨root, good, standsFor root p.entities a, has_root, rfl, depicts, fun id o at_o => ?_⟩
  obtain ⟨i, at_i, rfl⟩ : ∃ i, a.instances[id]? = some i ∧ settled i = o :=
    Option.map_eq_some_iff.mp ((get?_finish a id).symm.trans at_o)
  obtain ⟨e, he, row, links, first, history, told⟩ := remembers.histories id i at_i
  obtain ⟨keyAt, reached⟩ := exists_reaches wired good he
  have walked := wired.walked e he
  have at_id : a.identities[id]? = some (e.head.index, i.key) :=
    history.entity ▸ identity_of_instance at_i
  have stands := (records.standsFor_eq_some wired).mpr ⟨he, at_id⟩
  have row_eq := tells.find?_of_firstIn wired named reached (history.entity ▸ first)
  have type_eq : e.told good keyAt i.key = i.type := by
    rw [Entity.told, row_eq, history.type_eq]
  have described : s.Describes i.type := history.type_eq ▸ walked.describes_typeOf row
  -- the links in the history are the children that rows reach
  have linked : ∀ x ∈ e.sites, x.applies i.type = true →
      ((∃ l ∈ links, l.1 = x) ↔ x.LinkedIn good keyAt i.key) := fun x hx own => by
    rw [records.linked_iff wired he at_id history told hx,
      tells.childrenIn_rows wired reached hx (type_eq.symm ▸ own), Site.linkedIn_iff]
  obtain ⟨new, created, replayed⟩ := history.made
  refine ⟨e, i.key, keyAt, row, _, stands, reached, row_eq, created, fun fs leads => ?_,
    fun x hx own some_child => ?_, fun q apart => ?_, fun v chain inner embeds f hf stored => ?_⟩
  · have behind : (∃ l ∈ links, fs <+: l.1.chain.map (·.1)) ↔
        ∃ x ∈ e.sites, fs <+: x.chain.map (·.1) ∧ x.LinkedIn good keyAt i.key := by
      constructor
      · rintro ⟨l, hl, sub⟩
        obtain ⟨hx, own⟩ := history.sites l hl
        exact ⟨l.1, hx, sub, (linked _ hx own).mp ⟨l, hl, rfl⟩⟩
      · rintro ⟨x, hx, sub, some_child⟩
        have own := Site.applies_of_valueChain described leads sub
        obtain ⟨l, hl, rfl⟩ := (linked x hx own).mpr some_child
        exact ⟨l, hl, sub⟩
    have some_field : fs.map (·.name) ≠ [] := mt List.map_eq_nil_iff.mp leads.ne_nil
    rw [hasValue_settled_iff i some_field, history.hasValue_iff walked (named e he) leads, behind]
  · obtain ⟨o, at_o', -, -, relations⟩ := depicts.objects id e i.key keyAt stands reached
    cases at_o.symm.trans at_o'
    obtain ⟨ids, lists, shows⟩ := relations x hx (type_eq.symm ▸ own)
    refine ⟨ids, lists, shows.outright ?_⟩
    rintro rfl
    exact some_child.childKeys_ne_nil (List.map_eq_nil_iff.mp lists.symm)
  · refine at?_settled_congr ?_
    rw [replayed]
    refine Object.at?_replay_of_apart fun l hl => ?_
    obtain ⟨hx, own⟩ := history.sites l hl
    exact apart l.1 hx own ((linked _ hx own).mp ⟨l, hl, rfl⟩)
  · exact walked.covers row (history.type_eq ▸ embeds) hf stored

/-- No row fills a site, yet the harbour has one: the quays are in it. -/
theorem materialize_value_objects_harbours : ∃ p g o root who e key keyAt row i,
    Plan.build harbours "Harbour" = .ok p ∧ p.NamesFields harbours ∧
    p.materialize harbours (harbourRows.map .ok) = .ok g ∧ g.Depicts root harbourRows who ∧
    g.get? 0 = some o ∧ who[0]? = some (e, key) ∧ Reaches root harbourRows e keyAt ∧
    (harbourRows.find? fun row => keyAt row == some key) = some row ∧
    create harbours row e.head e.members key = .ok i ∧
    (∀ c ∈ e.cells, c.chain ≠ [] → ¬ row.Fills c.label) ∧
    (∀ fs, harbours.ValueChain i.type fs → (o.HasValue (fs.map (·.name)) ↔
      ∃ x ∈ e.sites, fs <+: x.chain.map (·.1) ∧ x.LinkedIn harbourRows keyAt key)) ∧
    o.HasValue ["site"] ∧ o.at? ["site", "quays"] = some (.leaf (.array [2, 3])) := by
  obtain ⟨p, built, found⟩ := ok_of_map (x := Plan.build harbours "Harbour")
    (f := fun p => (harbourRows.all fun row => p.entities.all fun e => e.cells.all fun c =>
        c.chain.isEmpty || (row.getOrNull c.label).isNull,
      (p.materialize harbours (harbourRows.map .ok)).toOption.map fun g =>
        ((g.get? 0).bind (Object.at? ["site", "quays"])).bind Slot.items?))
    (b := (true, some (some (true, [2, 3])))) (by decide +kernel)
  obtain ⟨unfilled, shape⟩ := Prod.mk.inj found
  obtain ⟨g, made, shown⟩ := ok_of_map shape
  simp only [Option.bind_eq_some_iff] at shown
  obtain ⟨quays, ⟨o, at_0, at_quays⟩, array⟩ := shown
  rw [Slot.eq_of_items? array] at at_quays
  have names : harbours.NamesFields := by decide +kernel
  have named := names.plan built
  obtain ⟨root, good, who, has_root, same, depicts, objects⟩ :=
    Plan.materialize_value_objects built named made
  obtain rfl : harbourRows = good := List.map_injective_iff.mpr (fun _ _ => Except.ok.inj) same
  obtain ⟨e, key, keyAt, row, i, stands, reached, first, created, values, -⟩ := objects 0 o at_0
  obtain ⟨root', has_root', wired⟩ := wired_of_build built
  cases has_root.symm.trans has_root'
  have unfilled : ∀ c ∈ e.cells, c.chain ≠ [] → ¬ row.Fills c.label := by
    intro c hc deep fills
    have hr := List.mem_of_find?_eq_some first
    simp only [List.all_eq_true, Bool.or_eq_true, List.isEmpty_iff] at unfilled
    have null := (unfilled row hr e (reached.mem wired) c hc).resolve_left deep
    exact Bool.false_ne_true (fills.symm.trans null)
  refine ⟨p, g, o, root, who, e, key, keyAt, row, i, built, named, made, depicts, at_0, stands, reached,
    first, created, unfilled, fun fs leads => ?_, ?_, at_quays⟩
  · refine (values fs leads).trans (or_iff_right ?_)
    rintro ⟨c, hc, sub, fills⟩
    exact unfilled c hc (fun none => leads.ne_nil (List.prefix_nil.mp (none ▸ sub))) fills
  · obtain ⟨inner, value, -⟩ := Option.bind_eq_some_iff.mp at_quays
    exact ⟨inner, Object.get?_of_embedded? value⟩

end Orm
