import Orm.Proofs.Assembly.Depiction
import Orm.Proofs.Assembly.Linking

/-!
# `Proofs.Assembly.Repetition` — rows that come again

Joins that have nothing to do with each other fan out, so the rows of a statement repeat each other. A row
that has been taken is absorbed: all that it leads to has been met and linked, and rows keep what there
is, so taking the row again changes nothing, then or at any later time. The graph of rows is therefore
that of the rows without the copies, whatever the plan is and wherever the copies stand.

## Contents
- **Growth.** `Assembly.kinds`, `Keeps`: rows keep the types of the instances and the links.
- **Absorption.** `Links.again`, `Adds.again`.
- **Copies.** `Repeats`, `Taken`.
- **Main result.** `addRows_repeats`, `Plan.materialize_repeats`.
-/

namespace Orm

open Schema Plan

/-! ## Growth -/

namespace Assembly

/-- The entity, the key and the type of each instance. -/
def kinds (a : Assembly) : List (Nat × Key × TypeModel) :=
  a.instances.map fun i => (i.entity, i.key, i.type)

/-- An assembly keeps what there is in another: instances stay where they are and of the types that they
have, and links stay. -/
structure Keeps (a a' : Assembly) : Prop where
  kinds : a.kinds <+: a'.kinds
  links : a.links ⊆ a'.links

variable {s : Schema} {row : Row} {e : EntityHead} {m members : Members} {part : Part} {o : Owner}
  {f : FieldModel} {kind : RelationKind} {entity : Nat} {key : Key} {id child : ObjectId}
  {type : TypeModel} {root : Entity} {a a' b : Assembly}

theorem kinds_modify (a : Assembly) (id : ObjectId) (change : Object → Object) :
    (a.modify id change).kinds = a.kinds := by
  refine List.ext_getElem? fun j => ?_
  unfold kinds modify
  rw [List.getElem?_map, List.getElem?_map, List.getElem?_modify]
  cases a.instances[j]? with
  | none => rfl
  | some i =>
    by_cases here : id = j
    · simp [here]
    · simp [here]

theorem identities_eq_map_kinds (a : Assembly) :
    a.identities = a.kinds.map fun k => (k.1, k.2.1) := by
  unfold identities kinds
  rw [List.map_map]
  rfl

namespace Keeps

theorem refl (a : Assembly) : Keeps a a :=
  ⟨List.prefix_rfl, List.Subset.refl _⟩

theorem trans (h : Keeps a a') (h' : Keeps a' b) : Keeps a b :=
  ⟨h.kinds.trans h'.kinds, List.Subset.trans h.links h'.links⟩

/-- An instance stays where it is, and of its type. -/
theorem instance_of (h : Keeps a a') {i : Instance} (at_id : a.instances[id]? = some i) :
    ∃ j, a'.instances[id]? = some j ∧ j.entity = i.entity ∧ j.key = i.key ∧ j.type = i.type := by
  obtain ⟨more, grown⟩ := h.kinds
  have kind : a.kinds[id]? = some (i.entity, i.key, i.type) := by
    unfold Assembly.kinds
    rw [List.getElem?_map, at_id]
    rfl
  have kept : a'.kinds[id]? = some (i.entity, i.key, i.type) := by
    rw [← grown, List.getElem?_append_left (List.getElem?_eq_some_iff.mp kind).1, kind]
  unfold Assembly.kinds at kept
  rw [List.getElem?_map] at kept
  obtain ⟨j, at_j, same⟩ := Option.map_eq_some_iff.mp kept
  simp only [Prod.mk.injEq] at same
  exact ⟨j, at_j, same⟩

/-- What is found under a key is found there later. -/
theorem find?_eq (h : Keeps a a') (found : a.find? entity key = some id) :
    a'.find? entity key = some id := by
  obtain ⟨more, grown⟩ := h.kinds
  rw [find?_eq_findIdx?, identities_eq_map_kinds] at found ⊢
  rw [← grown, List.map_append, List.findIdx?_append, found]
  rfl

end Keeps

/-- Linking a child keeps what there is, and the child is linked. -/
theorem keeps_connect (a : Assembly) (o : Owner) (f : FieldModel) (kind : RelationKind)
    (entity : Nat) (child : ObjectId) :
    Keeps a (a.connect o f kind entity child) ∧
      (⟨o.id, entity, child⟩ : Link) ∈ (a.connect o f kind entity child).links := by
  by_cases present : (⟨o.id, entity, child⟩ : Link) ∈ a.links
  · rw [connect_of_mem present]
    exact ⟨.refl a, present⟩
  · rw [connect_of_not_mem present]
    refine ⟨⟨?_, List.subset_append_left _ _⟩, List.mem_append_right _ List.mem_cons_self⟩
    rw [kinds_modify]
    exact List.prefix_rfl

theorem Meets.keeps (h : Meets s row e members key a id type a') : Keeps a a' := by
  cases h with
  | known => exact .refl a
  | made =>
    refine ⟨?_, List.Subset.refl _⟩
    unfold Assembly.kinds Assembly.add
    rw [List.map_append]
    exact List.prefix_append _ _

/-- **Linking keeps what there is.** -/
theorem Links.keeps (h : Links s row m part o a a') : Keeps a a' := by
  induction h with
  | done => exact .refl _
  | skip _ _ ih => exact ih
  | embedded _ _ _ _ relations embedded later => exact relations.trans (embedded.trans later)
  | relation _ _ met _ _ _ relations embedded later =>
    exact met.keeps.trans (relations.trans (embedded.trans ((keeps_connect ..).1.trans later)))

theorem Adds.keeps (h : Adds s root row a a') : Keeps a a' := by
  cases h with
  | unkeyed => exact .refl a
  | keyed _ met relations embedded => exact met.keeps.trans (relations.keeps.trans embedded.keeps)

/-! ## Absorption -/

/-- The instance that was met stands where it was met. -/
theorem Meets.stands (h : Meets s row e members key a id type a') :
    a'.find? e.index key = some id ∧ ∃ i, a'.instances[id]? = some i ∧ i.type = type := by
  cases h with
  | @known _ i found at_id => exact ⟨found, i, at_id, rfl⟩
  | @made i absent created =>
    obtain ⟨entity, key_eq, -⟩ := eq_of_create created
    have here : [(i.entity, i.key)].findIdx? (· == (e.index, key)) = some 0 := by
      rw [entity, key_eq, List.findIdx?_cons, beq_self_eq_true, if_pos rfl]
    have length : a.identities.length = a.instances.length := List.length_map _
    refine ⟨?_, i, List.getElem?_concat_length, rfl⟩
    rw [find?_eq_findIdx?, identities_add, List.findIdx?_append, ← find?_eq_findIdx?, absent, here, length]
    simp

/-- What has been met is found where it was met. -/
theorem Meets.again (h : Meets s row e members key a id type a') (keeps : Keeps a' b) :
    Meets s row e members key b id type b := by
  obtain ⟨found, i, at_id, rfl⟩ := h.stands
  obtain ⟨j, at_j, -, -, same⟩ := keeps.instance_of at_id
  rw [← same]
  exact .known (keeps.find?_eq found) at_j

/-- **What has been linked is linked again without change**, as long as what it led to is kept. -/
theorem Links.again (h : Links s row m part o a a') (keeps : Keeps a' b) :
    Links s row m part o b b := by
  induction h with
  | done => exact .done
  | skip idle _ ih => exact .skip idle (ih keeps)
  | embedded applies _ embedded later ih₁ ih₂ ih₃ =>
    have keeps₂ := later.keeps.trans keeps
    exact .embedded applies (ih₁ (embedded.keeps.trans keeps₂)) (ih₂ keeps₂) (ih₃ keeps)
  | @relation f kind child _ _ o _ id _ _ _ _ a₃ _ applies present met relations embedded later ih₁ ih₂
      ih₃ =>
    obtain ⟨connected, linked⟩ := keeps_connect a₃ o f kind child.index id
    have keeps₃ := connected.trans (later.keeps.trans keeps)
    have keeps₂ := embedded.keeps.trans keeps₃
    refine .relation applies present (met.again (relations.keeps.trans keeps₂)) (ih₁ keeps₂) (ih₂ keeps₃)
      ?_
    -- the child has been linked to its owner, and the link has been kept
    rw [connect_of_mem (keeps.links (later.keeps.links linked))]
    exact ih₃ keeps

/-- **A row that has been added is absorbed.** -/
theorem Adds.again (h : Adds s root row a a') (keeps : Keeps a' b) : Adds s root row b b := by
  cases h with
  | unkeyed absent => exact .unkeyed absent
  | keyed present met relations embedded =>
    have keeps₂ := embedded.keeps.trans keeps
    exact .keyed present (met.again (relations.keeps.trans keeps₂)) (relations.again keeps₂)
      (embedded.again keeps)

end Assembly

/-! ## Copies -/

/-- The second of two lists has the items of the first and copies of them, each copy behind an item that it
is one of. The items of `seen` stand in front of both. -/
inductive Repeats {α : Type} : List α → List α → List α → Prop where
  | done {seen : List α} : Repeats seen [] []
  | next {seen items more : List α} {item : α} (later : Repeats (item :: seen) items more) :
      Repeats seen (item :: items) (item :: more)
  | copy {seen items more : List α} {item : α} (known : item ∈ seen) (later : Repeats seen items more) :
      Repeats seen items (item :: more)

namespace Assembly

variable {s : Schema} {root : Entity}

/-- A row has been taken into an assembly that has kept all it led to. -/
def Taken (s : Schema) (root : Entity) (a : Assembly) (row : Except Error Row) : Prop :=
  ∃ r before after, row = .ok r ∧ Adds s root r before after ∧ Keeps after a

/-- **Copies of rows change nothing**, also where a row is a failure or does not fit. -/
theorem addRows_repeats {seen rows rows' : List (Except Error Row)} (h : Repeats seen rows rows')
    {a : Assembly} (taken : ∀ row ∈ seen, Taken s root a row) :
    addRows s root a rows' = addRows s root a rows := by
  induction h generalizing a with
  | done => rfl
  | @next seen rows rows' row _ ih =>
    unfold addRows
    cases row with
    | error e => rfl
    | ok r =>
      show a.addRow s root r >>= _ = a.addRow s root r >>= _
      cases added : a.addRow s root r with
      | error e => rfl
      | ok a' =>
        have adds := addRow_eq_ok_iff.mp added
        refine ih fun row' mem => ?_
        rcases List.mem_cons.mp mem with rfl | old
        · exact ⟨r, a, a', rfl, adds, .refl a'⟩
        · obtain ⟨r', before, after, rfl, adds', keeps⟩ := taken row' old
          exact ⟨r', before, after, rfl, adds', keeps.trans adds.keeps⟩
  | @copy seen rows rows' row known _ ih =>
    obtain ⟨r, before, after, rfl, adds, keeps⟩ := taken row known
    have absorbed : a.addRow s root r = .ok a := addRow_eq_ok_iff.mpr (adds.again keeps)
    conv => lhs; unfold addRows
    show a.addRow s root r >>= _ = _
    rw [absorbed]
    exact ih taken

end Assembly

/-! ## Main result -/

/-- A row that was read does not decide whether the rows behind it are read. -/
theorem mapM_ok_cons {α β : Type} (item : α) (rows : List (Except Error α)) (b : β) :
    (do let _ ← (Except.ok item :: rows).mapM id; return b) = (do let _ ← rows.mapM id; return b) := by
  rw [List.mapM_cons]
  show (rows.mapM id >>= fun read => Except.ok (item :: read)) >>= _ = _
  cases rows.mapM id with
  | error e => rfl
  | ok read => rfl

/-- Copies of rows that were read do not decide either. -/
theorem mapM_repeats {α β : Type} {seen rows rows' : List (Except Error α)} (h : Repeats seen rows rows')
    (fine : ∀ row ∈ seen, ∃ r, row = .ok r) (b : β) :
    (do let _ ← rows'.mapM id; return b) = (do let _ ← rows.mapM id; return b) := by
  induction h with
  | done => rfl
  | @next _ rows rows' row _ ih =>
    cases row with
    | error e => rfl
    | ok r =>
      rw [mapM_ok_cons, mapM_ok_cons]
      refine ih fun row mem => ?_
      rcases List.mem_cons.mp mem with rfl | old
      · exact ⟨r, rfl⟩
      · exact fine row old
  | copy known _ ih =>
    obtain ⟨r, rfl⟩ := fine _ known
    rw [mapM_ok_cons]
    exact ih fine

/-- **The graph of rows is that of the rows without the copies of those before them**, as joins that fan
out make them: it has the same objects in the same order, with the same fields, and the same roots. -/
theorem Plan.materialize_repeats {s : Schema} (p : Plan) {rows rows' : List (Except Error Row)}
    (repeats : Repeats [] rows rows') : p.materialize s rows' = p.materialize s rows := by
  unfold Plan.materialize
  cases p.root with
  | none => exact mapM_repeats repeats (fun _ h => absurd h List.not_mem_nil) _
  | some root =>
    refine congrArg (Assembly.finish <$> ·) ?_
    exact Assembly.addRows_repeats repeats fun _ h => absurd h List.not_mem_nil

/-- The first two rows about the staff come again behind the third. -/
theorem materialize_repeats_staff : ∃ p g, Plan.build staff "Person" = .ok p ∧
    p.materialize staff (staffRows.map .ok) = .ok g ∧
    p.materialize staff ((staffRows ++ staffRows.take 2).map .ok) = .ok g ∧
    g.rootIds = [0, 4] ∧ g.objectCount = 5 := by
  obtain ⟨p, built, shape⟩ := ok_of_map (x := Plan.build staff "Person")
    (f := fun p => (p.materialize staff (staffRows.map .ok)).toOption.map fun g =>
      (g.rootIds, g.objectCount))
    (b := some ([0, 4], 5)) (by decide +kernel)
  have repeats : Repeats [] (staffRows.map Except.ok)
      ((staffRows ++ staffRows.take 2).map Except.ok : List (Except Error Row)) :=
    .next (.next (.next (.copy (.tail _ (.tail _ (.head _))) (.copy (.tail _ (.head _)) .done))))
  obtain ⟨g, run, same⟩ := ok_of_map shape
  obtain ⟨roots, count⟩ := Prod.mk.inj same
  exact ⟨p, g, built, run, (Plan.materialize_repeats p repeats).trans run, roots, count⟩

end Orm
