import Orm.Proofs.Assembly.History
import Orm.Proofs.Assembly.Populating

/-!
# `Proofs.Assembly.Settling` — collections of fixed size

While rows are assembled every collection is a list, since it may still grow. When the last row has been
taken, those of relations that are declared with a fixed size are settled. Which they are was noted down
when the objects were made, as paths, before it was known whether the value objects on them would be there.
So a path that was noted down may lead nowhere, and a value object that was left out may have been made
later. Nevertheless each collection ends as its relation is declared, and nothing else is changed.

## Contents
- **Settled fields.** `Fields.Settles`: the same fields, but for some lists; `settles_settle`.
- **One path.** `at?_settle_self`, `at?_settle_of_not_along`, `at?_foldl_settle`.
- **Before the end.** `Instance.History.mem_arrays_iff`, `Instance.History.collection`.
- **Main result.** `Plan.materialize_settles`.
-/

namespace Orm

open Schema Plan Assembly

/-! ## Settled fields -/

/-- Fields are the same as before, in the same order and with the same contents at any depth, but for some
lists: those at certain paths may have been settled. -/
inductive Fields.Settles : (List String → Prop) → Fields → Fields → Prop where
  | nil {certain : List String → Prop} : Settles certain .nil .nil
  | leaf {certain : List String → Prop} {name : String} {content : Leaf} {rest rest' : Fields}
      (later : Settles certain rest rest') :
      Settles certain (.leaf name content rest) (.leaf name content rest')
  | list {certain : List String → Prop} {name : String} {ids : List ObjectId} {rest rest' : Fields}
      (here : certain [name]) (later : Settles certain rest rest') :
      Settles certain (.leaf name (.list ids) rest) (.leaf name (.array ids) rest')
  | embedded {certain : List String → Prop} {name typeName path : String}
      {inner inner' rest rest' : Fields} (inside : Settles (fun q => certain (name :: q)) inner inner')
      (later : Settles certain rest rest') :
      Settles certain (.embedded name typeName path inner rest)
        (.embedded name typeName path inner' rest')

namespace Fields.Settles

variable {certain certain' : List String → Prop} {fields fields' more : Fields} {name : String}

theorem refl (fields : Fields) : Settles certain fields fields := by
  induction fields generalizing certain with
  | nil => exact .nil
  | leaf name content rest ih => exact .leaf ih
  | embedded name typeName path inner rest inner_ih ih => exact .embedded inner_ih ih

theorem imp (h : Settles certain fields fields') (sub : ∀ q, certain q → certain' q) :
    Settles certain' fields fields' := by
  induction h generalizing certain' with
  | nil => exact .nil
  | leaf _ ih => exact .leaf (ih sub)
  | list here _ ih => exact .list (sub _ here) (ih sub)
  | embedded _ _ inside later => exact .embedded (inside fun q => sub _) (later sub)

theorem trans (h : Settles certain fields fields') (h' : Settles certain fields' more) :
    Settles certain fields more := by
  induction h generalizing more with
  | nil => exact h'
  | leaf _ ih =>
    cases h' with
    | leaf later => exact .leaf (ih later)
    | list here later => exact .list here (ih later)
  | list here _ ih =>
    cases h' with
    | leaf later => exact .list here (ih later)
  | embedded _ _ inside later =>
    cases h' with
    | embedded inside' later' => exact .embedded (inside inside') (later later')

/-- Settling a slot changes at most a list. -/
theorem set_settled {slot : Slot} (found : fields.get? name = some slot) (here : certain [name]) :
    Settles certain fields (fields.set name slot.settled) := by
  induction fields with
  | nil => cases found
  | leaf other content rest ih =>
    unfold Fields.get? at found
    unfold Fields.set
    by_cases same : other = name
    · rw [if_pos same] at found ⊢
      cases found
      subst same
      cases content with
      | list ids => exact .list here (refl rest)
      | value v => exact refl _
      | ref id => exact refl _
      | array ids => exact refl _
    · rw [if_neg same] at found ⊢
      exact .leaf (ih found)
  | embedded other typeName path inner rest _ ih =>
    unfold Fields.get? at found
    unfold Fields.set
    by_cases same : other = name
    · rw [if_pos same] at found ⊢
      cases found
      subst same
      exact refl _
    · rw [if_neg same] at found ⊢
      exact .embedded (refl inner) (ih found)

/-- A value object in which lists are settled stays in its place. -/
theorem set_embedded {o o' : Object} (found : fields.get? name = some (.embedded o))
    (typeName : o'.typeName = o.typeName) (path : o'.path = o.path)
    (inside : Settles (fun q => certain (name :: q)) o.fields o'.fields) :
    Settles certain fields (fields.set name (.embedded o')) := by
  induction fields with
  | nil => cases found
  | leaf other content rest ih =>
    unfold Fields.get? at found
    unfold Fields.set
    by_cases same : other = name
    · rw [if_pos same] at found
      cases found
    · rw [if_neg same] at found ⊢
      exact .leaf (ih found)
  | embedded other t p inner rest _ ih =>
    unfold Fields.get? at found
    unfold Fields.set
    by_cases same : other = name
    · rw [if_pos same] at found ⊢
      cases found
      subst same
      show Settles certain _ (.embedded other o'.typeName o'.path o'.fields rest)
      rw [typeName, path]
      exact .embedded inside (refl rest)
    · rw [if_neg same] at found ⊢
      exact .embedded (refl inner) (ih found)

end Fields.Settles

/-- **Settling a path changes at most the list at its end.** -/
theorem settles_settle (chain : List String) (o : Object) :
    Fields.Settles (· = chain) o.fields (o.settle chain).fields := by
  induction chain, o using Object.settle.induct with
  | case1 o => exact .refl _
  | case2 last o slot found =>
    simp only [Object.settle, found]
    exact .set_settled found rfl
  | case3 last o none =>
    simp only [Object.settle, none]
    exact .refl _
  | case4 field next chain o inner found ih =>
    simp only [Object.settle, found]
    refine .set_embedded (Object.get?_of_embedded? found) (Object.typeName_settle _ _)
      (Object.path_settle _ _) (ih.imp fun q same => ?_)
    rw [same]
  | case5 field next chain o none =>
    simp only [Object.settle, none]
    exact .refl _

/-- Settling some paths changes at most the lists at their ends. -/
theorem settles_foldl (chains : List (List String)) (o : Object) :
    Fields.Settles (· ∈ chains) o.fields (chains.foldl (fun o chain => o.settle chain) o).fields := by
  induction chains generalizing o with
  | nil => exact .refl _
  | cons chain rest ih =>
    have first := settles_settle chain o
    exact (first.imp fun q same => same ▸ List.mem_cons_self).trans
      ((ih (o.settle chain)).imp fun q later => List.mem_cons_of_mem _ later)

/-! ## One path -/

section

variable {o : Object} {chain q : List String}

/-- Settling a path settles what lies at its end. -/
theorem at?_settle_self (chain : List String) (o : Object) :
    (o.settle chain).at? chain = (o.at? chain).map Slot.settled := by
  induction chain, o using Object.settle.induct with
  | case1 o => rfl
  | case2 last o slot found =>
    simp only [Object.settle, found]
    show (o.set last _).get? last = (o.get? last).map _
    rw [Object.get?_set, if_pos rfl, found]
    rfl
  | case3 last o none =>
    simp only [Object.settle, none]
    show o.get? last = (o.get? last).map _
    rw [none]
    rfl
  | case4 field next chain o inner found ih =>
    simp only [Object.settle, found]
    rw [Object.at?_cons _ (List.cons_ne_nil _ _), Object.at?_cons _ (List.cons_ne_nil _ _),
      Object.embedded?_set, if_pos rfl, found]
    exact ih
  | case5 field next chain o none =>
    simp only [Object.settle, none]
    rw [Object.at?_cons _ (List.cons_ne_nil _ _), none]
    rfl

/-- **Settling a path leaves what lies at any path that it does not lead along.** -/
theorem at?_settle_of_not_along (off : ¬ q <+: chain) : (o.settle chain).at? q = o.at? q := by
  cases q with
  | nil => rfl
  | cons first more =>
    induction chain, o using Object.settle.induct generalizing first more with
    | case1 o => rfl
    | case2 last o slot found =>
      simp only [Object.settle, found]
      by_cases same : last = first
      · subst same
        cases more with
        | nil => exact absurd List.prefix_rfl off
        | cons second deeper =>
          -- a value object is no list, so it stays as it is
          rw [Object.at?_cons _ (List.cons_ne_nil _ _), Object.at?_cons _ (List.cons_ne_nil _ _)]
          unfold Object.embedded?
          rw [Object.get?_set, if_pos rfl, found]
          cases slot with
          | embedded inner => rfl
          | leaf content => cases content <;> rfl
      · refine Object.at?_congr ?_ more
        rw [Object.get?_set, if_neg same]
    | case3 last o none => simp only [Object.settle, none]
    | case4 field next chain o inner found ih =>
      simp only [Object.settle, found]
      by_cases same : field = first
      · subst same
        have tails : ¬ more <+: next :: chain := fun sub => off (List.cons_prefix_cons.mpr ⟨rfl, sub⟩)
        cases more with
        | nil => exact absurd List.nil_prefix tails
        | cons second deeper =>
          rw [Object.at?_cons _ (List.cons_ne_nil _ _), Object.at?_cons _ (List.cons_ne_nil _ _),
            Object.embedded?_set, if_pos rfl, found]
          exact ih second deeper tails
      · refine Object.at?_congr ?_ more
        rw [Object.get?_set, if_neg same]
    | case5 field next chain o none => simp only [Object.settle, none]

theorem Slot.settled_settled (slot : Slot) : slot.settled.settled = slot.settled := by
  cases slot with
  | leaf content => cases content <;> rfl
  | embedded o => rfl

/-- **What lies at a path is settled just if the path is among those to be settled**, where the others are
apart from it. -/
theorem at?_foldl_settle {chains : List (List String)}
    (each : ∀ chain ∈ chains, chain = q ∨ Apart chain q) (o : Object) :
    (chains.foldl (fun o chain => o.settle chain) o).at? q =
      if q ∈ chains then (o.at? q).map Slot.settled else o.at? q := by
  induction chains generalizing o with
  | nil => rfl
  | cons chain rest ih =>
    rw [List.foldl_cons, ih fun c hc => each c (List.mem_cons_of_mem _ hc)]
    rcases each chain List.mem_cons_self with rfl | apart
    · rw [at?_settle_self, if_pos List.mem_cons_self]
      split
      · rw [Option.map_map]
        exact congrFun (congrArg Option.map (funext Slot.settled_settled)) _
      · rfl
    · have other : chain ≠ q := fun same => apart.1 (same ▸ List.prefix_rfl)
      rw [at?_settle_of_not_along apart.2]
      simp only [List.mem_cons, or_iff_right (Ne.symm other)]

end

/-! ## Before the end -/

namespace Instance.History

variable {s : Schema} {e : Entity} {row : Row} {links : List (Site × ObjectId)} {i : Instance}

/-- The paths that were noted down are those of relations with a fixed size. -/
theorem mem_arrays_iff (h : i.History s e row links) {q : List String} :
    q ∈ i.arrays ↔ ∃ x ∈ e.sites, x.applies i.type = true ∧ x.kind.isMany = true ∧
      x.field.cardinality = .array ∧ x.path = q := by
  obtain ⟨new, created, -⟩ := h.made
  rw [h.type_eq]
  exact (populated_of_create created).1.mem_arrays_iff

/-- **Before the end, a relation to many is missing or a list**, and where it is a list it is one of the
entity's relations. -/
theorem collection (h : i.History s e row links) (walked : e.Walked s)
    (named : ∀ u, e.Makes s u → u.Distinct) {q : List String} {f : FieldModel}
    (leads : FieldPath s i.type q f) (many : f.cardinality.isMany = true) :
    i.object.at? q = none ∨ (∃ ids, i.object.at? q = some (.leaf (.list ids))) ∧
      ∃ x ∈ e.sites, x.applies i.type = true ∧ x.path = q ∧ x.field = f := by
  have type_eq := h.type_eq
  obtain ⟨⟨new, created, replayed⟩, sites⟩ := h
  rw [type_eq] at leads sites
  -- when the object is new, its collections are empty lists of relations that apply
  have fresh : new.at? q = none ∨ (∃ ids, new.at? q = some (.leaf (.list ids))) ∧
      ∃ x ∈ e.sites, x.applies i.type = true ∧ x.path = q ∧ x.field = f := by
    cases found : new.at? q with
    | none => exact .inl rfl
    | some slot =>
      obtain ⟨populated, whole⟩ := populated_of_create created
      rw [show new = _ from whole] at found
      obtain ⟨empty, x, hx, own, path, -⟩ :=
        populated.relation (walked.plain named row) leads found
      have field := ((walked.plainPath named hx own).eq_of_through leads (.inl (path ▸ List.prefix_rfl))).2
      exact .inr ⟨⟨[], congrArg some empty⟩, x, hx, type_eq ▸ own, path, field⟩
  rw [replayed]
  clear created replayed
  -- and a link either makes the list that it leads to grow, or leaves it alone
  induction links using List.reverseRecOn with
  | nil => exact fresh
  | append_singleton links l ih =>
    have before := ih fun l' hl => sites l' (List.mem_append_left _ hl)
    obtain ⟨hx, own⟩ := sites l (List.mem_append_right _ List.mem_cons_self)
    rw [Object.replay_concat]
    rcases walked.eq_or_apart named hx own leads with ⟨path, field⟩ | apart
    · right
      refine ⟨?_, l.1, hx, type_eq ▸ own, path, field⟩
      have kind : l.1.kind.isMany = true := by
        rw [((walked.plain named row).path hx own).2, isMany_relationKind, field, many]
      rw [← path, Object.at?_linked, path]
      rcases before with none | ⟨⟨ids, list⟩, -⟩
      · rw [none]
        cases same : l.1.kind with
        | toOne => rw [same] at kind; cases kind
        | toManyDirect => exact ⟨_, rfl⟩
        | toManyLinked => exact ⟨_, rfl⟩
      · rw [list]
        cases same : l.1.kind with
        | toOne => rw [same] at kind; cases kind
        | toManyDirect => exact ⟨_, rfl⟩
        | toManyLinked => exact ⟨_, rfl⟩
    · rw [Object.at?_linked_of_apart apart]
      exact before

end Instance.History

/-! ## Main result -/

/-- The content of a relation to many in a graph: a collection of the size that it is declared with. -/
def Schema.FieldModel.collection (f : FieldModel) (ids : List ObjectId) : Leaf :=
  if f.cardinality = .array then .array ids else .list ids

/-- A relation of objects of a type is declared with a fixed size, and lies at a path. -/
def Schema.FixedAt (s : Schema) (t : TypeModel) (q : List String) : Prop :=
  ∃ f, FieldPath s t q f ∧ f.cardinality = .array

namespace Instance.History

variable {s : Schema} {e : Entity} {row : Row} {links : List (Site × ObjectId)} {i : Instance}

/-- The object is of the type that the row told. -/
theorem typeName_eq (h : i.History s e row links) : i.object.typeName = i.type.name := by
  obtain ⟨new, created, replayed⟩ := h.made
  have new_type : new.typeName = (typeOf e.head row).name :=
    congrArg Object.typeName (populated_of_create created).2
  rw [replayed, Object.typeName_replay, new_type, h.type_eq]

/-- Settling the paths that were noted down settles lists of relations with a fixed size. -/
theorem settles (h : i.History s e row links) (walked : e.Walked s)
    (named : ∀ u, e.Makes s u → u.Distinct) :
    i.object.fields.Settles (s.FixedAt i.type) (settled i).fields := by
  refine (settles_foldl i.arrays i.object).imp fun q noted => ?_
  obtain ⟨x, hx, own, -, fixed, rfl⟩ := h.mem_arrays_iff.mp noted
  rw [h.type_eq] at own ⊢
  exact ⟨x.field, (walked.plainPath named hx own).fieldPath, fixed⟩

/-- **A relation to many ends as it is declared**, with the items that it had. -/
theorem settled_collection (h : i.History s e row links) (walked : e.Walked s)
    (named : ∀ u, e.Makes s u → u.Distinct) {q : List String} {f : FieldModel}
    (leads : FieldPath s i.type q f) (many : f.cardinality.isMany = true) :
    i.object.at? q = none ∧ (settled i).at? q = none ∨
      ∃ ids, i.object.at? q = some (.leaf (.list ids)) ∧
        (settled i).at? q = some (.leaf (f.collection ids)) := by
  have type_eq := h.type_eq
  have told : FieldPath s (typeOf e.head row) q f := type_eq ▸ leads
  have each : ∀ chain ∈ i.arrays, chain = q ∨ Apart chain q := by
    intro chain noted
    obtain ⟨x, hx, own, -, -, rfl⟩ := h.mem_arrays_iff.mp noted
    exact (walked.eq_or_apart named hx (type_eq ▸ own) told).imp_left And.left
  have after : (settled i).at? q = _ := at?_foldl_settle each i.object
  rcases h.collection walked named leads many with none | ⟨⟨ids, list⟩, x, hx, own, path, field⟩
  · refine .inl ⟨none, ?_⟩
    rw [after, none]
    exact ite_self _
  refine .inr ⟨ids, list, ?_⟩
  rw [after, list, FieldModel.collection]
  by_cases fixed : f.cardinality = .array
  · have kind : x.kind.isMany = true := by
      rw [((walked.plain named row).path hx (type_eq ▸ own)).2, isMany_relationKind, field, many]
    have noted : q ∈ i.arrays := h.mem_arrays_iff.mpr ⟨x, hx, own, kind, field ▸ fixed, path⟩
    rw [if_pos noted, if_pos fixed]
    rfl
  · have unnoted : q ∉ i.arrays := by
      intro noted
      obtain ⟨y, hy, own', -, fixed', path'⟩ := h.mem_arrays_iff.mp noted
      obtain rfl := walked.path_inj hx hy (path.trans path'.symm)
      exact fixed (field ▸ fixed')
    rw [if_neg unnoted, if_neg fixed]

end Instance.History

/-- **When the last row has been taken, each relation to many is a collection of the size that it is
declared with, and nothing else has changed.** The objects are those that were assembled, in their places.
A relation to many that is there, in an object or in a value object at any depth, was a list and has the
same items in the same order. All other fields are as they were. -/
theorem Plan.materialize_settles {s : Schema} {name : String} {p : Plan}
    {rows : List (Except Error Row)} {g : Graph} (built : Plan.build s name = .ok p)
    (named : p.NamesFields s) (made : p.materialize s rows = .ok g) :
    ∃ root a, p.root = some root ∧ addRows s root {} rows = .ok a ∧ a.finish = g ∧
      g.objects.length = a.instances.length ∧
      ∀ (id : ObjectId) (i : Instance), a.instances[id]? = some i → ∃ o, g.get? id = some o ∧
        s.describe o.typeName = .ok i.type ∧
        o.typeName = i.object.typeName ∧ o.path = i.object.path ∧
        i.object.fields.Settles (s.FixedAt i.type) o.fields ∧
        ∀ q f, FieldPath s i.type q f → f.cardinality.isMany = true →
          i.object.at? q = none ∧ o.at? q = none ∨
          ∃ ids, i.object.at? q = some (.leaf (.list ids)) ∧
            o.at? q = some (.leaf (f.collection ids)) := by
  obtain ⟨root, has_root, wired⟩ := wired_of_build built
  unfold Plan.materialize at made
  rw [has_root] at made
  obtain ⟨a, run, rfl⟩ := map_eq_ok.mp made
  refine ⟨root, a, has_root, run, rfl, List.length_map _, fun id i at_id => ?_⟩
  obtain ⟨e, he, row, links, -, history, -⟩ := (remembers_of_addRows wired run).histories id i at_id
  have walked := wired.walked e he
  have placed : a.finish.get? id = some (settled i) := by
    rw [get?_finish, at_id, Option.map_some]
  have same_type : (settled i).typeName = i.object.typeName := typeName_foldl_settle i.object i.arrays
  have described : s.Describes i.type := history.type_eq ▸ walked.describes_typeOf row
  refine ⟨settled i, placed, ?_, same_type, path_foldl_settle i.object i.arrays,
    history.settles walked (named e he),
    fun q f leads many => history.settled_collection walked (named e he) leads many⟩
  rw [same_type, history.typeName_eq]
  exact described.self

/-- Harbours with boats, as many as there are, and with a site whose quays are of a fixed number. -/
def harbours : Schema where
  sources := [⟨.runtime, [
    { name := "Harbour", table := some ⟨none, "harbour"⟩,
      fields := [
        { name := "id", type := .value .int, attrs := { id := some true } },
        { name := "site", type := .named "Site" },
        { name := "boats", type := .named "Boat", cardinality := .list }] },
    { name := "Site", embeddable := true,
      fields := [
        { name := "street", type := .value .text },
        { name := "quays", type := .named "Quay", cardinality := .array }] },
    { name := "Quay", table := some ⟨none, "quay"⟩,
      fields := [{ name := "id", type := .value .int, attrs := { id := some true } }] },
    { name := "Boat", table := some ⟨none, "boat"⟩,
      fields := [{ name := "id", type := .value .int, attrs := { id := some true } }] }]⟩]

/-- In the first row a harbour has no site, so none is made; the quays of the other rows bring it forth. -/
def harbourRows : List Row := [
  .ofPairs [("harbour.id", .int 1)],
  .ofPairs [("harbour.id", .int 1), ("site.quays.id", .int 7), ("boats.id", .int 5)],
  .ofPairs [("harbour.id", .int 1), ("site.quays.id", .int 8), ("boats.id", .int 5)]]

/-- The items of a collection, and whether their number is fixed. -/
def Slot.items? : Slot → Option (Bool × List ObjectId)
  | .leaf (.list ids) => some (false, ids)
  | .leaf (.array ids) => some (true, ids)
  | _ => none

theorem Slot.eq_of_items? {slot : Slot} {fixed : Bool} {ids : List ObjectId}
    (h : slot.items? = some (fixed, ids)) :
    slot = .leaf (if fixed then .array ids else .list ids) := by
  unfold items? at h
  split at h <;> cases h <;> rfl

theorem materialize_settles_harbours : ∃ p, ∃ a : Assembly, ∃ g o,
    Plan.build harbours "Harbour" = .ok p ∧ p.NamesFields harbours ∧
    p.materialize harbours (harbourRows.map .ok) = .ok g ∧ a.finish = g ∧
    g.get? 0 = some o ∧ o.at? ["site", "quays"] = some (.leaf (.array [2, 3])) ∧
    o.at? ["boats"] = some (.leaf (.list [1])) ∧
    ∃ i, a.instances[0]? = some i ∧ i.object.fields.Settles (harbours.FixedAt i.type) o.fields := by
  obtain ⟨p, built, shape⟩ := ok_of_map (x := Plan.build harbours "Harbour")
    (f := fun p => (p.materialize harbours (harbourRows.map .ok)).toOption.map fun g =>
      [["site", "quays"], ["boats"]].map fun q => ((g.get? 0).bind (Object.at? q)).bind Slot.items?)
    (b := some [some (true, [2, 3]), some (false, [1])]) (by decide +kernel)
  obtain ⟨g, made, shown⟩ := ok_of_map shape
  simp only [List.map_cons, List.map_nil, List.cons.injEq, and_true, Option.bind_eq_some_iff] at shown
  obtain ⟨⟨quays, ⟨o, at_0, at_quays⟩, array⟩, boats, ⟨o', at_0', at_boats⟩, list⟩ := shown
  cases at_0.symm.trans at_0'
  rw [Slot.eq_of_items? array] at at_quays
  rw [Slot.eq_of_items? list] at at_boats
  have names : harbours.NamesFields := by decide +kernel
  have named := names.plan built
  obtain ⟨root, a, -, -, finished, length, objects⟩ := Plan.materialize_settles built named made
  have there : 0 < a.instances.length := length ▸ (List.getElem?_eq_some_iff.mp at_0).1
  have at_id : a.instances[0]? = some a.instances[0] := List.getElem?_eq_getElem there
  obtain ⟨o', at_0', -, -, -, settles, -⟩ := objects 0 _ at_id
  cases at_0.symm.trans at_0'
  exact ⟨p, a, g, o, built, named, made, finished, at_0, at_quays, at_boats, _, at_id, settles⟩

end Orm
