import Orm.Proofs.Assembly.Conformity
import Orm.Proofs.Assembly.Streaming

/-!
# `Proofs.Assembly.History` — how objects come about

An object is made of one row. After that nothing happens to it but that children are linked to it, one
after the other, each over a relation of its entity. So an object is what the row made of it, with its
links replayed, whatever else the rows bring and in whatever order. What linking a child does to an object
is then said once, for one link, and holds of the object as a whole.

## Contents
- **Replaying.** `Object.linked`, `Object.replay`, `at?_linked`, `at?_replay_of_apart`.
- **Histories.** `Instance.History`, `Assembly.Remembers`.
- **Steps.** `Meets.remembers`, `Remembers.connect`, `Links.remembers`, `Adds.remembers`.
- **Rows.** `FirstIn`, `remembers_of_addRows`.
-/

namespace Orm

open Schema Plan Assembly

/-! ## Replaying -/

/-- The fields that lead to a relation, with the types of their value objects. -/
def Plan.Site.steps (x : Site) : List (String × String) :=
  x.chain.map fun p => (p.1.name, p.2.name)

theorem Plan.Site.path_eq (x : Site) : x.path = x.steps.map (·.1) ++ [x.field.name] := by
  unfold path steps
  rw [List.map_map]
  rfl

namespace Object

variable {o : Object} {x : Site} {child : ObjectId} {q : List String}

/-- An object with a child linked to it over a relation. -/
def linked (o : Object) (x : Site) (child : ObjectId) : Object :=
  o.updateAt (attach x.field.name x.kind child) x.steps

/-- An object with children linked to it one after the other, each over a relation. -/
def replay (o : Object) (links : List (Site × ObjectId)) : Object :=
  links.foldl (fun o l => o.linked l.1 l.2) o

theorem replay_concat (o : Object) (links : List (Site × ObjectId)) (x : Site) (child : ObjectId) :
    o.replay (links ++ [(x, child)]) = (o.replay links).linked x child := by
  unfold replay
  rw [List.foldl_append]
  rfl

/-- A child is attached where its relation lies. -/
theorem at?_linked : (o.linked x child).at? x.path = attached x.kind child (o.at? x.path) := by
  rw [Site.path_eq]
  exact at?_updateAt (get?_attach _ _ _) x.steps o

/-- **Nothing happens apart from there**, also where value objects are made on the way. -/
theorem at?_linked_of_apart (apart : Apart x.path q) : (o.linked x child).at? q = o.at? q := by
  rw [Site.path_eq] at apart
  exact at?_updateAt_of_apart (fun fields other ne => get?_attach_of_ne ne _ _ _) apart o

theorem at?_replay_of_apart {links : List (Site × ObjectId)} (apart : ∀ l ∈ links, Apart l.1.path q) :
    (o.replay links).at? q = o.at? q := by
  induction links generalizing o with
  | nil => rfl
  | cons l rest ih =>
    refine (ih fun l' hl => apart l' (List.mem_cons_of_mem l hl)).trans ?_
    exact at?_linked_of_apart (apart l List.mem_cons_self)

theorem typeName_replay (o : Object) (links : List (Site × ObjectId)) :
    (o.replay links).typeName = o.typeName := by
  induction links generalizing o with
  | nil => rfl
  | cons l rest ih => exact (ih _).trans (typeName_updateAt _ _ o)

end Object

/-! ## Histories -/

/-- An instance was made of a row as one of an entity, and since then some children were linked to it. -/
structure Instance.History (s : Schema) (e : Entity) (row : Row) (links : List (Site × ObjectId))
    (i : Instance) : Prop where
  made : ∃ new : Object, create s row e.head e.members i.key = .ok { i with object := new } ∧
    i.object = new.replay links
  sites : ∀ l ∈ links, l.1 ∈ e.sites ∧ l.1.applies i.type = true

namespace Instance.History

variable {s : Schema} {e : Entity} {row : Row} {links : List (Site × ObjectId)} {i : Instance}

theorem entity (h : i.History s e row links) : i.entity = e.head.index := by
  obtain ⟨new, created, -⟩ := h.made
  exact (eq_of_create created).1

theorem type_eq (h : i.History s e row links) : i.type = typeOf e.head row := by
  obtain ⟨new, created, -⟩ := h.made
  exact (eq_of_create created).2.2

/-- One more child is linked. -/
theorem linked (h : i.History s e row links) {x : Site} (hx : x ∈ e.sites)
    (own : x.applies i.type = true) (child : ObjectId) :
    { i with object := i.object.linked x child }.History s e row (links ++ [(x, child)]) := by
  obtain ⟨⟨new, created, replayed⟩, sites⟩ := h
  refine ⟨⟨new, created, ?_⟩, fun l hl => ?_⟩
  · rw [Object.replay_concat, ← replayed]
  · rcases List.mem_append.mp hl with before | last
    · exact sites l before
    · rw [List.mem_singleton.mp last]
      exact ⟨hx, own⟩

end Instance.History

namespace Assembly

/-- The links of an instance, in the order in which they were made. -/
def linksOf (a : Assembly) (id : ObjectId) : List Link :=
  a.links.filter (·.parent == id)

/-- All instances have a history that the links tell, from the row that brought them forth. -/
structure Remembers (s : Schema) (es : List Entity) (born : Nat → Key → Row → Prop)
    (a : Assembly) : Prop where
  parents : ∀ l ∈ a.links, l.parent < a.instances.length
  histories : ∀ (id : ObjectId) (i : Instance), a.instances[id]? = some i →
    ∃ e ∈ es, ∃ row links, born i.entity i.key row ∧ i.History s e row links ∧
      a.linksOf id = links.map fun l => ⟨id, l.1.child.index, l.2⟩

variable {s : Schema} {es : List Entity} {born born' : Nat → Key → Row → Prop} {e : Entity}
  {root : Entity} {row : Row} {m : Members} {part : Part} {o : Owner} {key : Key} {id : ObjectId}
  {type : TypeModel} {a a' : Assembly}

namespace Remembers

theorem start (s : Schema) (es : List Entity) (born : Nat → Key → Row → Prop) :
    Remembers s es born {} :=
  ⟨fun _ h => absurd h List.not_mem_nil, fun _ _ none => absurd none.symm (Option.some_ne_none _)⟩

theorem imp (h : Remembers s es born a)
    (sub : ∀ i ∈ a.instances, ∀ row, born i.entity i.key row → born' i.entity i.key row) :
    Remembers s es born' a := by
  refine ⟨h.parents, fun id i found => ?_⟩
  obtain ⟨e, he, row, links, brought, history⟩ := h.histories id i found
  exact ⟨e, he, row, links, sub i (List.mem_of_getElem? found) row brought, history⟩

end Remembers

/-! ## Steps -/

/-- **An instance that is met was there, or it was made just now** and has no links. -/
theorem Meets.remembers (he : e ∈ es) (met : Meets s row e.head e.members key a id type a')
    (brings : (e.head.index, key) ∉ a.identities → born e.head.index key row)
    (h : Remembers s es born a) : Remembers s es born a' := by
  cases met with
  | known => exact h
  | @made i absent created =>
    obtain ⟨entity, key_eq, -⟩ := eq_of_create created
    have length : (a.add i).instances.length = a.instances.length + 1 := List.length_append
    refine ⟨fun l hl => ?_, fun id j found => ?_⟩
    · rw [length]
      exact Nat.lt_succ_of_lt (h.parents l hl)
    have place : (a.instances ++ [i])[id]? = some j := found
    rw [List.getElem?_append] at place
    split at place
    · exact h.histories id j place
    next beyond =>
      obtain rfl := List.mem_singleton.mp (List.mem_of_getElem? place)
      obtain rfl := key_eq
      have history : j.History s e row [] :=
        ⟨⟨j.object, created, rfl⟩, fun l hl => absurd hl List.not_mem_nil⟩
      refine ⟨e, he, row, [], ?_, history, ?_⟩
      · rw [entity]
        exact brings (find?_eq_none_iff.mp absent)
      · refine List.filter_eq_nil_iff.mpr fun l hl same => beyond ?_
        exact beq_iff_eq.mp same ▸ h.parents l hl

/-- **A child is linked to its owner, and to no other instance.** -/
theorem Remembers.connect (h : Remembers s es born a) (wired : Wired s root es) (he : e ∈ es)
    {x : Site} (hx : x ∈ e.sites) (chain : o.chain = x.steps)
    (identity : a.identities[o.id]? = some (e.head.index, key)) (stands : a.Stands o.id o.type)
    (own : x.applies o.type = true) (child : ObjectId) :
    Remembers s es born (a.connect o x.field x.kind x.child.index child) := by
  by_cases present : (⟨o.id, x.child.index, child⟩ : Link) ∈ a.links
  · rw [connect_of_mem present]
    exact h
  rw [connect_of_not_mem present]
  have length : ∀ {links change}, (modify { a with links := links } o.id change).instances.length =
      a.instances.length := List.length_modify ..
  obtain ⟨i, at_id, told⟩ := stands
  refine ⟨fun l hl => ?_, fun id j found => ?_⟩
  · rw [length]
    rcases List.mem_append.mp hl with before | last
    · exact h.parents l before
    · rw [List.mem_singleton.mp last]
      exact (List.getElem?_eq_some_iff.mp at_id).1
  have links_of : ∀ {change}, (modify { a with links := a.links ++ [⟨o.id, x.child.index, child⟩] }
      o.id change).linksOf id =
        a.linksOf id ++ [(⟨o.id, x.child.index, child⟩ : Link)].filter (·.parent == id) :=
    List.filter_append ..
  unfold modify at found
  rw [List.getElem?_modify] at found
  obtain ⟨before, at_before, rfl⟩ := Option.map_eq_some_iff.mp found
  obtain ⟨e', he', row, links, brought, history, told_links⟩ := h.histories id before at_before
  by_cases here : o.id = id
  · subst here
    cases at_id.symm.trans at_before
    -- the owner is an instance of the entity that the relation belongs to
    have entity : e'.head.index = e.head.index := by
      have same := (identity_of_instance at_id).symm.trans identity
      exact history.entity.symm.trans (Prod.mk.inj (Option.some.inj same)).1
    obtain rfl := wired.eq_of_index he' he entity
    refine ⟨e', he', row, links ++ [(x, child)], ?_, ?_, ?_⟩
    · rw [if_pos rfl]
      exact brought
    · rw [if_pos rfl, chain]
      exact history.linked hx (told.symm ▸ own) child
    · rw [links_of, told_links, List.map_append]
      exact congrArg _ (List.filter_cons_of_pos (beq_self_eq_true _))
  · rw [if_neg here]
    refine ⟨e', he', row, links, brought, history, ?_⟩
    have elsewhere : [(⟨o.id, x.child.index, child⟩ : Link)].filter (·.parent == id) = [] :=
      List.filter_cons_of_neg (mt beq_iff_eq.mp here)
    rw [links_of, told_links, elsewhere, List.append_nil]

/-- **Linking members keeps histories.** -/
theorem Links.remembers (wired : Wired s root es) (h : Links s row m part o a a')
    (he : e ∈ es) {chain : List (FieldModel × TypeModel)} (sites : ∀ x ∈ m.sites chain, x ∈ e.sites)
    {types : Nat → Key → TypeModel} (owns : Owns types e key chain o a) (stands : a.Stands o.id o.type)
    (brings : ∀ n k, (n, k) ∉ a.identities → born n k row) (remembers : Remembers s es born a) :
    Remembers s es born a' := by
  -- what is not known later was not known before, so it is brought by the row as well
  have brings_later : ∀ {b c : Assembly}, b.identities <+: c.identities →
      (∀ n k, (n, k) ∉ b.identities → born n k row) →
      ∀ n k, (n, k) ∉ c.identities → born n k row :=
    fun sub brings n k unknown => brings n k fun mem => unknown (sub.subset mem)
  induction h generalizing e chain key types with
  | done => exact remembers
  | skip idle _ ih =>
    exact ih he (fun x hx => sites x (idle.sites_subset chain hx)) owns stands brings remembers
  | @embedded f t inner rest o a a₁ a₂ _ applies relations embedded _ ih₁ ih₂ ih₃ =>
    have within : ∀ x ∈ inner.sites (chain ++ [(f, t)]), x ∈ e.sites := fun x hx =>
      sites x (List.mem_append_left _ hx)
    have beside : ∀ x ∈ rest.sites chain, x ∈ e.sites := fun x hx =>
      sites x (List.mem_append_right _ hx)
    have owned := owns.inside applies t
    have grown₁ := relations.identities_prefix
    have grown₂ := embedded.identities_prefix
    have stands₁ := stands.keep relations.keeps
    have remembers₁ := ih₁ he within owned stands brings remembers
    have remembers₂ := ih₂ he within (owned.grow grown₁) stands₁ (brings_later grown₁ brings) remembers₁
    exact ih₃ he beside (owns.grow (grown₁.trans grown₂)) (stands₁.keep embedded.keeps)
      (brings_later (grown₁.trans grown₂) brings) remembers₂
  | @relation f kind child inner rest o k id type a a₁ a₂ a₃ _ applies _ met relations embedded _
      ih₁ ih₂ ih₃ =>
    have hx := sites ⟨chain, f, kind, child, inner⟩ List.mem_cons_self
    have beside : ∀ x ∈ rest.sites chain, x ∈ e.sites := fun x hx =>
      sites x (List.mem_cons_of_mem _ hx)
    have child_mem : (⟨child, inner⟩ : Entity) ∈ es := wired.closed e he _ hx
    have grown₀ := met.identities_prefix
    have grown₁ := relations.identities_prefix
    have grown₂ := embedded.identities_prefix
    have grown := grown₀.trans (grown₁.trans grown₂)
    have remembers₀ : Remembers s es born a₁ :=
      Meets.remembers (e := ⟨child, inner⟩) child_mem met (brings _ _) remembers
    -- the child is linked as an instance of its own, outside all value objects
    have direct : Owns (fun _ _ => type) ⟨child, inner⟩ k [] ⟨id, type, []⟩ a₁ := Owns.direct met.identity
    have child_stands : a₁.Stands id type := met.stands.2
    have remembers₁ := ih₁ child_mem (fun _ hy => hy) direct child_stands (brings_later grown₀ brings)
      remembers₀
    have remembers₂ := ih₂ child_mem (fun _ hy => hy) (direct.grow grown₁)
      (child_stands.keep relations.keeps) (brings_later (grown₀.trans grown₁) brings) remembers₁
    have stands₃ := stands.keep (met.keeps.trans (relations.keeps.trans embedded.keeps))
    have owns₃ := owns.grow grown
    have own : (Site.mk chain f kind child inner).applies o.type = true := by
      rw [owns.type_eq]
      exact owns.site_applies applies kind child inner
    have remembers₃ := remembers₂.connect wired he hx owns.chain_eq owns₃.identity stands₃ own id
    have kept := identities_connect a₃ o f kind child.index id
    exact ih₃ he beside (owns₃.grow (kept ▸ List.prefix_rfl))
      (stands₃.keep (keeps_connect a₃ o f kind child.index id).1)
      (brings_later (kept ▸ grown) brings) remembers₃

/-- **A row keeps the histories that there are, and begins those of the instances that it brings.** -/
theorem Adds.remembers (wired : Wired s root es) (h : Adds s root row a a')
    (remembers : Remembers s es born a) :
    Remembers s es (fun n k r => born n k r ∨ r = row ∧ (n, k) ∉ a.identities) a' := by
  have known : Remembers s es (fun n k r => born n k r ∨ r = row ∧ (n, k) ∉ a.identities) a :=
    remembers.imp fun _ _ _ => .inl
  cases h with
  | unkeyed => exact known
  | @keyed key id type _ a₁ a₂ _ _ met relations embedded =>
    have brings : ∀ {b : Assembly}, a.identities <+: b.identities → ∀ n k, (n, k) ∉ b.identities →
        born n k row ∨ row = row ∧ (n, k) ∉ a.identities :=
      fun sub n k unknown => .inr ⟨rfl, fun mem => unknown (sub.subset mem)⟩
    have top := wired.root_mem
    have grown₀ := met.identities_prefix
    have grown₁ := relations.identities_prefix
    have direct : Owns (fun _ _ => type) root key [] ⟨id, type, []⟩ a₁ := Owns.direct met.identity
    have stands : a₁.Stands id type := met.stands.2
    have remembers₁ := relations.remembers wired top (fun _ hx => hx) direct stands (brings grown₀)
      (met.remembers top (brings List.prefix_rfl _ _) known)
    exact embedded.remembers wired top (fun _ hx => hx) (direct.grow grown₁)
      (stands.keep relations.keeps) (brings (grown₀.trans grown₁)) remembers₁

/-! ## Rows -/

/-- An entity and key are first met in a row: not in the rows before, and then in this one. -/
def FirstIn (s : Schema) (root : Entity) (rows : List (Except Error Row)) (n : Nat) (key : Key)
    (row : Row) : Prop :=
  ∃ before after a a', rows = before ++ .ok row :: after ∧ addRows s root {} before = .ok a ∧
    a.addRow s root row = .ok a' ∧ (n, key) ∉ a.identities ∧ (n, key) ∈ a'.identities

/-- **After some rows, every instance has a history that begins in the first row that brings it.** -/
theorem remembers_of_addRows (wired : Wired s root es) {rows : List (Except Error Row)}
    (h : addRows s root {} rows = .ok a) : Remembers s es (FirstIn s root rows) a := by
  have along : ∀ (later before : List (Except Error Row)) (b : Assembly),
      addRows s root {} before = .ok b → Remembers s es (FirstIn s root (before ++ later)) b →
      addRows s root b later = .ok a → Remembers s es (FirstIn s root (before ++ later)) a := by
    intro later
    induction later with
    | nil =>
      intro before b _ remembers run
      cases run
      exact remembers
    | cons item rest ih =>
      intro before b earlier remembers run
      obtain ⟨row, rfl, step⟩ := ok_bind.mp run
      obtain ⟨b', added, rest_run⟩ := ok_bind.mp step
      have so_far : addRows s root {} (before ++ [.ok row]) = .ok b' := by
        rw [addRows_append, earlier]
        exact ok_bind.mpr ⟨b, rfl, ok_bind.mpr ⟨row, rfl, ok_bind.mpr ⟨b', added, rfl⟩⟩⟩
      have split : before ++ .ok row :: rest = (before ++ [.ok row]) ++ rest := by simp
      have grown := (addRow_eq_ok_iff.mp added).remembers wired remembers
      rw [split] at grown ⊢
      refine ih _ b' so_far (grown.imp fun i hi r => ?_) rest_run
      rintro (old | ⟨rfl, unknown⟩)
      · exact old
      · exact ⟨before, rest, b, b', split.symm, earlier, added, unknown,
          List.mem_map.mpr ⟨i, hi, rfl⟩⟩
  exact along rows [] {} rfl (Remembers.start s es _) h

end Assembly

end Orm
