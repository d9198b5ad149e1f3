import Orm.Proofs.Assembly.Descent
import Orm.Proofs.Object.Union

/-!
# `Proofs.Assembly.Union` — two assemblies in one

An assembly can be put behind another one: its instances come after those of the other, and its
references and links move up with them. What is done to the second assembly alone can be done to it
behind the first: finding an instance that the first does not have, adding one, and linking a child.
Last, the graph of the whole is the union of the two graphs.

## Contents
- **Unions.** `Assembly.union`, `identities_union`, `find?_union`, `getElem?_union`.
- **Steps.** `add_union`, `modify_union`, `connect_union`.
- **Graphs.** `finish_union`.
-/

namespace Orm

open Schema Plan

/-! ## Unions -/

/-- An instance that has moved with all that it refers to. -/
def Instance.shift (k : Nat) (i : Instance) : Instance :=
  { i with object := i.object.shift k }

/-- A link between instances that have moved. -/
def Link.shift (k : Nat) (l : Link) : Link :=
  ⟨k + l.parent, l.entity, k + l.child⟩

namespace Assembly

/-- An owner that has moved. -/
def Owner.shift (k : Nat) (o : Owner) : Owner :=
  { o with id := k + o.id }

/-- Two assemblies in one, the second behind the first. -/
def union (a b : Assembly) : Assembly where
  instances := a.instances ++ b.instances.map (Instance.shift a.instances.length)
  links := a.links ++ b.links.map (Link.shift a.instances.length)

section

variable {a b : Assembly} {c n : Nat} {key : Key} {id child : ObjectId} {i : Instance}
  {change moved : Object → Object} {o : Owner} {f : FieldModel} {kind : RelationKind}

theorem union_empty (a : Assembly) : a.union {} = a := by
  show Assembly.mk (a.instances ++ []) (a.links ++ []) = a
  rw [List.append_nil, List.append_nil]

theorem length_identities (a : Assembly) : a.identities.length = a.instances.length :=
  List.length_map _

/-- An assembly knows the identities of its parts. -/
theorem identities_union (a b : Assembly) :
    (a.union b).identities = a.identities ++ b.identities := by
  show (a.instances ++ b.instances.map (Instance.shift a.instances.length)).map _ = _
  rw [List.map_append, List.map_map]
  rfl

/-- What is not in the first assembly is found where the second has it. -/
theorem find?_union (absent : (c, key) ∉ a.identities) (b : Assembly) :
    (a.union b).find? c key = (b.find? c key).map (a.instances.length + ·) := by
  have nowhere : a.identities.findIdx? (· == (c, key)) = none := by
    rw [← find?_eq_findIdx?]
    exact find?_eq_none_iff.mpr absent
  rw [find?_eq_findIdx?, find?_eq_findIdx?, identities_union, List.findIdx?_append, nowhere,
    Option.none_or, length_identities]
  congr 1
  funext id
  exact Nat.add_comm id _

theorem getElem?_union (a b : Assembly) (id : ObjectId) :
    (a.union b).instances[a.instances.length + id]? =
      (b.instances[id]?).map (Instance.shift a.instances.length) := by
  have beyond : (a.union b).instances[a.instances.length + id]? =
      (b.instances.map (Instance.shift a.instances.length))[a.instances.length + id -
        a.instances.length]? :=
    List.getElem?_append_right (Nat.le_add_right _ _)
  rw [beyond, Nat.add_sub_cancel_left, List.getElem?_map]

/-! ## Steps -/

/-- An instance that refers to nothing is added to the whole as it is to the second assembly. -/
theorem add_union (a b : Assembly) (new : i.object.fields.targets = []) :
    (a.union b).add i = a.union (b.add i) := by
  have still : i.shift a.instances.length = i := by
    show { i with object := { i.object with fields := i.object.fields.shift _ } } = i
    rw [Fields.shift_eq_self new]
  show Assembly.mk ((a.instances ++ b.instances.map _) ++ [i]) _ =
    Assembly.mk (a.instances ++ (b.instances ++ [i]).map _) _
  rw [List.map_append, List.map_singleton, still, List.append_assoc]
  rfl

/-- An object of the second assembly is changed in the whole as it is there. -/
theorem modify_union (a b : Assembly) (id : ObjectId)
    (same : ∀ object : Object,
      (change object).shift a.instances.length = moved (object.shift a.instances.length)) :
    (a.union b).modify (a.instances.length + id) moved = a.union (b.modify id change) := by
  have instances : (a.instances ++ b.instances.map (Instance.shift a.instances.length)).modify
        (a.instances.length + id) (fun i => { i with object := moved i.object }) =
      a.instances ++ (b.instances.modify id fun i => { i with object := change i.object }).map
        (Instance.shift a.instances.length) := by
    apply List.ext_getElem?
    intro j
    rw [List.getElem?_modify]
    by_cases before : j < a.instances.length
    · have other : a.instances.length + id ≠ j := by omega
      rw [List.getElem?_append_left before, List.getElem?_append_left before]
      simp [other]
    · obtain ⟨j, rfl⟩ := Nat.exists_eq_add_of_le (Nat.le_of_not_lt before)
      have behind : a.instances.length ≤ a.instances.length + j := Nat.le_add_right _ _
      rw [List.getElem?_append_right behind, List.getElem?_append_right behind,
        Nat.add_sub_cancel_left, List.getElem?_map, List.getElem?_map, List.getElem?_modify]
      by_cases here : id = j
      · subst here
        cases b.instances[id]? with
        | none => rfl
        | some i => simp [Instance.shift, same]
      · have other : a.instances.length + id ≠ a.instances.length + j :=
          fun equal => here (Nat.add_left_cancel equal)
        simp only [if_neg here, if_neg other]
        cases b.instances[j]? <;> rfl
  exact congrArg (Assembly.mk · _) instances

/-- **A child is linked in the whole as it is in the second assembly.** -/
theorem connect_union (linked : ∀ l ∈ a.links, l.parent < a.identities.length) (b : Assembly) :
    (a.union b).connect (o.shift a.instances.length) f kind c (a.instances.length + child) =
      a.union (b.connect o f kind c child) := by
  set l : Link := ⟨o.id, c, child⟩
  -- A pair that has moved is not among those of the first assembly, whose owners stand before it.
  have known : l.shift a.instances.length ∈ (a.union b).links ↔ l ∈ b.links := by
    constructor
    · intro mem
      rcases List.mem_append.mp mem with first | second
      · have bound : a.instances.length + o.id < a.identities.length := linked _ first
        rw [length_identities] at bound
        omega
      · obtain ⟨l', mem', same⟩ := List.mem_map.mp second
        obtain ⟨parent, entity, child'⟩ := Link.mk.inj same
        have equal : l' = l := by
          obtain ⟨p, e, ch⟩ := l'
          exact Link.mk.injEq .. ▸ ⟨Nat.add_left_cancel parent, entity, Nat.add_left_cancel child'⟩
        exact equal ▸ mem'
    · exact fun mem => List.mem_append_right _ (List.mem_map.mpr ⟨l, mem, rfl⟩)
  by_cases present : l ∈ b.links
  · rw [connect_of_mem present, connect_of_mem (known.mpr present)]
  · rw [connect_of_not_mem present, connect_of_not_mem (mt known.mp present)]
    have longer : ({ a.union b with
        links := (a.union b).links ++ [l.shift a.instances.length] } : Assembly) =
        a.union { b with links := b.links ++ [l] } := by
      show Assembly.mk _ _ = Assembly.mk _ _
      rw [List.map_append, List.map_singleton, ← List.append_assoc]
      rfl
    have attached : ∀ object : Object,
        (object.updateAt (attach f.name kind child) o.chain).shift a.instances.length =
          (object.shift a.instances.length).updateAt
            (attach f.name kind (a.instances.length + child)) o.chain := fun object =>
      Object.shift_updateAt (shift_attach _ f.name kind child) o.chain object
    exact (congrArg (fun u : Assembly => u.modify (a.instances.length + o.id) _) longer).trans
      (modify_union a _ o.id attached)

/-! ## Graphs -/

theorem settled_shift (k : Nat) (i : Instance) : settled (i.shift k) = (settled i).shift k := by
  have along : ∀ (chains : List (List String)) (o : Object),
      chains.foldl (fun o chain => o.settle chain) (o.shift k) =
        (chains.foldl (fun o chain => o.settle chain) o).shift k := by
    intro chains
    induction chains with
    | nil => exact fun o => rfl
    | cons chain rest ih =>
      intro o
      rw [List.foldl_cons, List.foldl_cons, ← Object.shift_settle, ih]
  exact along i.arrays i.object

/-- **The graph of a union is the union of the graphs.** -/
theorem finish_union (a b : Assembly) : (a.union b).finish = a.finish.union b.finish := by
  have count : a.finish.objectCount = a.instances.length := List.length_map _
  have objects : (a.union b).instances.map settled =
      a.instances.map settled ++ (b.instances.map settled).map (Object.shift a.instances.length) := by
    show (a.instances ++ b.instances.map _).map settled = _
    rw [List.map_append, List.map_map, List.map_map]
    exact congrArg _ (List.map_congr_left fun i _ => settled_shift _ i)
  -- The roots of the second assembly are counted on from the first.
  have roots : ∀ (l : List Instance) (start : Nat),
      ((l.map (Instance.shift start)).zipIdx start).filterMap
          (fun p => if p.1.entity = 0 then some p.2 else none) =
        (l.zipIdx.filterMap fun p => if p.1.entity = 0 then some p.2 else none).map (start + ·) := by
    intro l start
    rw [List.zipIdx_map, List.filterMap_map, List.map_filterMap, List.zipIdx_eq_map_add,
      List.filterMap_map]
    refine List.filterMap_congr fun p _ => ?_
    by_cases root : p.1.entity = 0
    · simp [Instance.shift, root]
    · simp [Instance.shift, root]
  show Graph.mk _ _ = Graph.mk _ _
  rw [objects, count]
  congr 1
  show ((a.instances ++ b.instances.map _).zipIdx).filterMap _ = _
  rw [List.zipIdx_append, List.filterMap_append, Nat.zero_add, roots]
  rfl

end

end Assembly

end Orm
