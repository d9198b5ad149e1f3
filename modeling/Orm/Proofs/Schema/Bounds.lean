import Mathlib.Data.List.FinRange
import Mathlib.Data.List.Perm.Subperm
import Mathlib.Data.Nat.Find
import Mathlib.Logic.Function.Iterate
import Orm.Proofs.Schema.Layers

/-!
# `Proofs.Schema.Bounds` — the recursions over a schema end by themselves

Types are described along their ancestors and descend along their subclasses, and declarations may
refer to each other in circles. The functions that do so count down from the size of the schema. Here
it is shown that this count never runs out: any higher count gives the same answer, whatever the
declarations are. What stops the recursions is what they look at: a chain of different names cannot be
longer than the schema, and every step down to a subclass lengthens the ancestry.

## Contents
- **Names.** `length_names`, `length_le_size`.
- **Descriptions.** `describeFrom_eq`, `describeFrom_eq_describe`.
- **Tables.** `ancestorAt`, `hasTable_iff`, `nearest_le_size`, `hasTable_eq`.
- **Described types.** `TypeModel.ancestry`, `describe_of_describeFrom`, `Describes.of_mem_lineage`.
- **Descendants.** `subclassBy_eq_ok_iff`, `extends_of_subclass`, `descendantsBy_eq`.
-/

namespace Orm.Schema

variable {s : Schema}

/-! ## Names -/

/-- A schema is as large as it has declarations. -/
theorem length_names (s : Schema) : s.names.length = s.size := by
  have along : ∀ (sources : List Source) (n : Nat),
      sources.foldl (fun n source => n + source.size) n =
        n + (sources.flatMap fun source => source.decls.map (·.name)).length := by
    intro sources
    induction sources with
    | nil => exact fun n => rfl
    | cons source rest ih =>
      intro n
      rw [List.foldl_cons, ih, List.flatMap_cons, List.length_append, List.length_map, Nat.add_assoc]
      rfl
  unfold names size
  rw [along, Nat.zero_add]

/-- A chain of different names is not longer than the schema. -/
theorem length_le_size {chain : List String} (distinct : chain.Nodup) (declared : chain ⊆ s.names) :
    chain.length ≤ s.size := by
  rw [← length_names]
  exact (distinct.subperm declared).length_le

/-- A chain of different names stays one with a name that is not on it. -/
theorem nodup_concat {chain : List String} {name : String} (distinct : chain.Nodup)
    (fresh : name ∉ chain) : (chain ++ [name]).Nodup := by
  refine List.nodup_append.mpr ⟨distinct, List.nodup_singleton name, ?_⟩
  intro a on_chain b last same
  rw [List.mem_singleton.mp last] at same
  exact fresh (same ▸ on_chain)

theorem mem_names_of_find? {name : String} {decl : TypeDecl} (h : s.find? name = some decl) :
    name ∈ s.names := by
  obtain ⟨source, hs, inSource⟩ := List.exists_of_findSome?_eq_some h
  refine List.mem_flatMap.mpr ⟨source, hs, List.mem_map.mpr ⟨decl, ?_, name_of_find? h⟩⟩
  exact List.mem_of_find?_eq_some inSource

/-! ## Descriptions -/

/-- **What a type is described as does not depend on the bound**, as long as the bound is not smaller
than what is left of the schema. -/
theorem describeFrom_eq {chain : List String} (distinct : chain.Nodup) (declared : chain ⊆ s.names)
    {fuel fuel' : Nat} (enough : s.size < fuel + chain.length)
    (enough' : s.size < fuel' + chain.length) (name : String) :
    describeFrom s fuel chain name = describeFrom s fuel' chain name := by
  have short := length_le_size distinct declared
  induction fuel generalizing fuel' chain name with
  | zero => omega
  | succ fuel ih =>
    cases fuel' with
    | zero => omega
    | succ fuel' =>
      unfold describeFrom
      by_cases seen : chain.contains name = true
      · rw [if_pos seen, if_pos seen]
      rw [if_neg seen, if_neg seen]
      cases found : s.find? name with
      | none => rfl
      | some decl =>
        -- the name joins the chain, which makes up for the step down
        have fresh : name ∉ chain := fun mem => seen (List.contains_iff_mem.mpr mem)
        have distinct' : (chain ++ [name]).Nodup := nodup_concat distinct fresh
        have declared' : chain ++ [name] ⊆ s.names := List.append_subset.mpr
          ⟨declared, List.cons_subset.mpr ⟨mem_names_of_find? found, List.nil_subset _⟩⟩
        have longer : (chain ++ [name]).length = chain.length + 1 := List.length_append
        have above : ∀ parent, describeFrom s fuel (chain ++ [name]) parent =
            describeFrom s fuel' (chain ++ [name]) parent := fun parent =>
          ih distinct' declared' (by omega) (by omega) parent (length_le_size distinct' declared')
        dsimp only
        cases decl.superclass with
        | none => rfl
        | some parent =>
          dsimp only
          rw [above parent]

/-- **Describing a type takes no more steps than there are declarations.** -/
theorem describeFrom_eq_describe {fuel : Nat} (enough : s.size < fuel) (name : String) :
    describeFrom s fuel [] name = s.describe name :=
  describeFrom_eq List.nodup_nil (List.nil_subset _) (by simpa using enough) (by simp) name

/-! ## Tables -/

/-- The declaration that one extends. -/
def parentOf (s : Schema) (decl : TypeDecl) : Option TypeDecl :=
  decl.superclass.bind s.find?

/-- The declaration some steps up the ancestry, if there is one. -/
def ancestorAt (s : Schema) (decl : TypeDecl) (steps : Nat) : Option TypeDecl :=
  (fun d : Option TypeDecl => d.bind s.parentOf)^[steps] (some decl)

theorem ancestorAt_add (s : Schema) (decl : TypeDecl) (m n : Nat) :
    s.ancestorAt decl (m + n) = (fun d : Option TypeDecl => d.bind s.parentOf)^[m] (s.ancestorAt decl n) :=
  Function.iterate_add_apply _ m n _

/-- The ancestors of a declaration are those of the one that it extends, and that one. -/
theorem ancestorAt_succ (s : Schema) (decl : TypeDecl) (steps : Nat) :
    s.ancestorAt decl (steps + 1) =
      (s.parentOf decl).bind fun parent => s.ancestorAt parent steps := by
  show (fun d : Option TypeDecl => d.bind s.parentOf)^[steps] (s.parentOf decl) = _
  cases s.parentOf decl with
  | none => exact Function.iterate_fixed rfl steps
  | some parent => rfl

/-- Whether a table is found within a bound. -/
theorem hasTable_iff {fuel : Nat} {decl : TypeDecl} :
    hasTable s fuel decl = true ↔
      ∃ steps ≤ fuel, ∃ d, s.ancestorAt decl steps = some d ∧ d.ownTable.isSome = true := by
  induction fuel generalizing decl with
  | zero =>
    constructor
    · exact fun h => ⟨0, Nat.le_refl 0, decl, rfl, h⟩
    · rintro ⟨steps, none, d, at_steps, table⟩
      obtain rfl := Nat.le_zero.mp none
      cases at_steps
      exact table
  | succ fuel ih =>
    unfold hasTable
    rw [Bool.or_eq_true]
    constructor
    · rintro (own | above)
      · exact ⟨0, Nat.zero_le _, decl, rfl, own⟩
      · split at above
        next parent found =>
          obtain ⟨steps, bound, d, at_steps, table⟩ := ih.mp above
          refine ⟨steps + 1, Nat.succ_le_succ bound, d, ?_, table⟩
          rw [ancestorAt_succ, show s.parentOf decl = some parent from found]
          exact at_steps
        next => cases above
    · rintro ⟨steps, bound, d, at_steps, table⟩
      cases steps with
      | zero =>
        cases at_steps
        exact .inl table
      | succ steps =>
        right
        rw [ancestorAt_succ] at at_steps
        obtain ⟨parent, found, at_steps⟩ := Option.bind_eq_some_iff.mp at_steps
        rw [show decl.superclass.bind s.find? = some parent from found]
        exact ih.mpr ⟨steps, Nat.le_of_succ_le_succ bound, d, at_steps, table⟩

/-- Ancestors of one name have the same ancestors. -/
theorem name_of_ancestorAt {decl d : TypeDecl} {steps : Nat}
    (h : s.ancestorAt decl (steps + 1) = some d) : s.find? d.name = some d := by
  rw [Nat.add_comm, ancestorAt_add] at h
  obtain ⟨below, -, found⟩ := Option.bind_eq_some_iff.mp h
  obtain ⟨name, -, found⟩ := Option.bind_eq_some_iff.mp found
  rw [name_of_find? found]
  exact found

/-- There is an ancestor at every step on the way to one. -/
theorem exists_ancestorAt_of_le {decl d : TypeDecl} {i n : Nat} (le : i ≤ n)
    (h : s.ancestorAt decl n = some d) : ∃ a, s.ancestorAt decl i = some a := by
  cases present : s.ancestorAt decl i with
  | some a => exact ⟨a, rfl⟩
  | none =>
    have gone : s.ancestorAt decl n = none := by
      rw [← Nat.sub_add_cancel le, ancestorAt_add, present]
      exact Function.iterate_fixed rfl _
    cases gone.symm.trans h

/-- **The nearest ancestor of a kind is no farther up than there are declarations.** No two on the way to it
have one name: they would have the same ancestors, and there would be one of the kind nearer. -/
theorem nearest_le_size {P : TypeDecl → Prop} {decl d : TypeDecl} {n : Nat}
    (h : s.ancestorAt decl n = some d) (kind : P d)
    (nearest : ∀ m < n, ∀ a, s.ancestorAt decl m = some a → ¬ P a) : n ≤ s.size := by
  have way : ∀ i : Fin n, ∃ a, s.ancestorAt decl (i + 1) = some a :=
    fun i => exists_ancestorAt_of_le i.isLt h
  choose a ha using way
  have apart : ∀ i j : Fin n, i < j → (a i).name ≠ (a j).name := by
    intro i j less same
    have one : s.ancestorAt decl (i + 1) = s.ancestorAt decl (j + 1) := by
      rw [ha i, ha j, ← name_of_ancestorAt (ha i), ← name_of_ancestorAt (ha j), same]
    have sooner : s.ancestorAt decl (n - (j + 1) + (i + 1)) = some d := by
      rw [ancestorAt_add, one, ← ancestorAt_add, Nat.sub_add_cancel j.isLt]
      exact h
    exact nearest _ (by omega) d sooner kind
  have distinct : (List.ofFn fun i => (a i).name).Nodup := by
    refine List.nodup_ofFn.mpr fun i j same => ?_
    rcases Nat.lt_trichotomy i j with less | eq | more
    · exact (apart i j less same).elim
    · exact Fin.ext eq
    · exact (apart j i more same.symm).elim
  have declared : (List.ofFn fun i => (a i).name) ⊆ s.names := by
    intro name mem
    obtain ⟨i, rfl⟩ := List.mem_ofFn.mp mem
    exact mem_names_of_find? (name_of_ancestorAt (ha i))
  have bound := length_le_size distinct declared
  rwa [List.length_ofFn] at bound

/-- **A table is found within the size of the schema, or not at all.** -/
theorem hasTable_eq {fuel : Nat} (enough : s.size ≤ fuel) (decl : TypeDecl) :
    hasTable s fuel decl = hasTable s s.size decl := by
  rw [Bool.eq_iff_iff, hasTable_iff, hasTable_iff]
  constructor
  · rintro ⟨steps, -, found⟩
    classical
    have some_steps : ∃ steps d, s.ancestorAt decl steps = some d ∧ d.ownTable.isSome = true :=
      ⟨steps, found⟩
    obtain ⟨d, at_nearest, table⟩ := Nat.find_spec some_steps
    have bound := nearest_le_size (P := fun d => d.ownTable.isSome = true) at_nearest table
      fun m less a at_m own => Nat.find_min some_steps less ⟨a, at_m, own⟩
    exact ⟨Nat.find some_steps, bound, d, at_nearest, table⟩
  · rintro ⟨steps, bound, found⟩
    exact ⟨steps, Nat.le_trans bound enough, found⟩

/-! ## Described types -/

/-- What a described type is, one step up. -/
theorem describeFrom_eq_ok_iff {fuel : Nat} {chain : List String} {name : String} {t : TypeModel} :
    describeFrom s (fuel + 1) chain name = .ok t ↔
      name ∉ chain ∧ ∃ decl own, s.find? name = some decl ∧ decl.name.isEmpty = false ∧
        describeLayer s decl = .ok own ∧
        (decl.superclass = none ∧ t = .extending own none ∨
          ∃ up parent, decl.superclass = some up ∧
            describeFrom s fuel (chain ++ [name]) up = .ok parent ∧
            t = .extending own (some parent)) := by
  rw [describeFrom]
  by_cases seen : chain.contains name = true
  · rw [if_pos seen]
    exact ⟨nofun, fun h => absurd (List.contains_iff_mem.mp seen) h.1⟩
  have fresh : name ∉ chain := fun mem => seen (List.contains_iff_mem.mpr mem)
  rw [if_neg seen]
  cases found : s.find? name with
  | none => exact ⟨nofun, fun ⟨_, _, _, absent, _⟩ => nomatch absent⟩
  | some decl =>
    dsimp only
    by_cases nameless : decl.name.isEmpty = true
    · rw [if_pos nameless]
      refine ⟨nofun, fun ⟨_, decl', _, same, named, _⟩ => ?_⟩
      cases same
      cases nameless.symm.trans named
    rw [if_neg nameless]
    have named : decl.name.isEmpty = false := Bool.eq_false_iff.mpr nameless
    cases sup : decl.superclass with
    | none =>
      dsimp only
      constructor
      · intro h
        obtain ⟨parent, root, rest⟩ := ok_bind.mp h
        obtain ⟨own, made, result⟩ := ok_bind.mp rest
        cases root
        cases result
        exact ⟨fresh, decl, own, rfl, named, made, .inl ⟨sup, rfl⟩⟩
      · rintro ⟨-, decl', own, same, -, made, shape⟩
        cases same
        rcases shape with ⟨-, rfl⟩ | ⟨up, parent, sup', -, -⟩
        · exact ok_bind.mpr ⟨none, rfl, ok_bind.mpr ⟨own, made, rfl⟩⟩
        · cases sup.symm.trans sup'
    | some up =>
      dsimp only
      rw [map_eq_pure_bind]
      constructor
      · intro h
        obtain ⟨parent, above, rest⟩ := ok_bind.mp h
        obtain ⟨p, run, same⟩ := ok_bind.mp above
        obtain ⟨own, made, result⟩ := ok_bind.mp rest
        cases same
        cases result
        exact ⟨fresh, decl, own, rfl, named, made, .inr ⟨up, p, sup, run, rfl⟩⟩
      · rintro ⟨-, decl', own, same, -, made, shape⟩
        cases same
        rcases shape with ⟨sup', -⟩ | ⟨up', parent, sup', run, rfl⟩
        · cases sup.symm.trans sup'
        · cases sup.symm.trans sup'
          have above : (describeFrom s fuel (chain ++ [name]) up >>= fun p => pure (some p)) =
              .ok (some parent) := ok_bind.mpr ⟨parent, run, rfl⟩
          exact ok_bind.mpr ⟨some parent, above, ok_bind.mpr ⟨own, made, rfl⟩⟩

/-- The names of a type and of its ancestors. -/
def TypeModel.ancestry (t : TypeModel) : List String :=
  (t.toTypeLayer :: t.ancestors).map (·.name)

theorem ancestry_extending (own : TypeLayer) (parent : TypeModel) :
    (TypeModel.extending own (some parent)).ancestry = own.name :: parent.ancestry := rfl

/-- **A type is described without meeting a name twice**, and it has the name it was asked for. -/
theorem ancestry_of_describeFrom {fuel : Nat} {chain : List String} {name : String} {t : TypeModel}
    (h : describeFrom s fuel chain name = .ok t) :
    t.name = name ∧ t.ancestry.Nodup ∧ t.ancestry ⊆ s.names ∧ ∀ n ∈ t.ancestry, n ∉ chain := by
  induction fuel generalizing chain name t with
  | zero => cases h
  | succ fuel ih =>
    obtain ⟨fresh, decl, own, found, -, made, shape⟩ := describeFrom_eq_ok_iff.mp h
    have own_name : own.name = name := by rw [name_of_describeLayer made, name_of_find? found]
    have declared : name ∈ s.names := mem_names_of_find? found
    rcases shape with ⟨-, rfl⟩ | ⟨up, parent, -, above, rfl⟩
    · have alone : (TypeModel.extending own none).ancestry = [name] := congrArg (fun n => [n]) own_name
      rw [alone]
      refine ⟨own_name, List.nodup_singleton name, ?_, fun n hn => ?_⟩
      · exact List.cons_subset.mpr ⟨declared, List.nil_subset _⟩
      · rw [List.mem_singleton.mp hn]
        exact fresh
    · obtain ⟨-, distinct, names, apart⟩ := ih above
      rw [ancestry_extending, own_name]
      refine ⟨own_name, List.nodup_cons.mpr ⟨fun mem => ?_, distinct⟩, ?_, fun n hn => ?_⟩
      · exact apart name mem (List.mem_append_right chain List.mem_cons_self)
      · exact List.cons_subset.mpr ⟨declared, names⟩
      · rcases List.mem_cons.mp hn with rfl | inherited
        · exact fresh
        · exact fun mem => apart n inherited (List.mem_append_left _ mem)

/-- A type that was described along a chain is described so without it. -/
theorem describeFrom_of_describeFrom {fuel fuel' : Nat} {chain chain' : List String} {name : String}
    {t : TypeModel} (h : describeFrom s fuel chain name = .ok t) (enough : t.ancestors.length < fuel')
    (apart : ∀ n ∈ t.ancestry, n ∉ chain') : describeFrom s fuel' chain' name = .ok t := by
  induction fuel generalizing fuel' chain chain' name t with
  | zero => cases h
  | succ fuel ih =>
    cases fuel' with
    | zero => omega
    | succ fuel' =>
      obtain ⟨own_name, distinct, -, -⟩ := ancestry_of_describeFrom h
      obtain ⟨-, decl, own, found, named, made, shape⟩ := describeFrom_eq_ok_iff.mp h
      have fresh : name ∉ chain' := own_name ▸ apart t.name List.mem_cons_self
      refine describeFrom_eq_ok_iff.mpr ⟨fresh, decl, own, found, named, made, ?_⟩
      refine shape.imp id ?_
      rintro ⟨up, parent, sup, above, rfl⟩
      refine ⟨up, parent, sup, ih above ?_ fun n hn mem => ?_, rfl⟩
      · have : (TypeModel.extending own (some parent)).ancestors.length =
            parent.ancestors.length + 1 := rfl
        omega
      · rw [ancestry_extending] at distinct apart
        rcases List.mem_append.mp mem with before | here
        · exact apart n (List.mem_cons_of_mem _ hn) before
        · rw [List.mem_singleton.mp here, ← own_name] at hn
          exact (List.nodup_cons.mp distinct).1 hn

/-- The ancestry of a described type is not longer than the schema. -/
theorem length_ancestors_lt {fuel : Nat} {chain : List String} {name : String} {t : TypeModel}
    (h : describeFrom s fuel chain name = .ok t) : t.ancestors.length < s.size := by
  obtain ⟨-, distinct, names, -⟩ := ancestry_of_describeFrom h
  have bound := length_le_size distinct names
  rw [TypeModel.ancestry, List.length_map, List.length_cons] at bound
  exact bound

theorem describe_of_describeFrom {fuel : Nat} {chain : List String} {name : String} {t : TypeModel}
    (h : describeFrom s fuel chain name = .ok t) : s.describe name = .ok t :=
  describeFrom_of_describeFrom h (Nat.lt_succ_of_lt (length_ancestors_lt h))
    fun _ _ => List.not_mem_nil

/-- A described type is described under its own name. -/
theorem Describes.self {t : TypeModel} (h : s.Describes t) : s.describe t.name = .ok t := by
  obtain ⟨name, described⟩ := h
  rw [(ancestry_of_describeFrom described).1]
  exact described

/-- The type that a described type extends is described. -/
theorem Describes.superclass {t parent : TypeModel} (h : s.Describes t)
    (extends_ : t.superclass? = some parent) : s.Describes parent := by
  obtain ⟨name, described⟩ := h
  obtain ⟨-, decl, own, -, -, -, shape⟩ := describeFrom_eq_ok_iff.mp described
  rcases shape with ⟨-, rfl⟩ | ⟨up, above, -, run, rfl⟩
  · rw [TypeModel.superclass?_extending] at extends_
    cases extends_
  · rw [TypeModel.superclass?_extending] at extends_
    cases extends_
    exact ⟨up, describe_of_describeFrom run⟩

/-- The types of the lineage of a described type are described. -/
theorem Describes.of_mem_lineage {t base : TypeModel} (h : s.Describes t) (mem : base ∈ t.lineage) :
    s.Describes base := by
  have up : ∀ (above : List TypeLayer) (own : TypeLayer), s.Describes ⟨own, above⟩ →
      ∀ u ∈ TypeModel.upward own above, s.Describes u := by
    intro above
    induction above with
    | nil =>
      intro own described u hu
      rw [List.mem_singleton.mp hu]
      exact described
    | cons parent rest ih =>
      intro own described u hu
      rcases List.mem_cons.mp hu with rfl | higher
      · exact described
      · exact ih parent (described.superclass rfl) u higher
  exact up t.ancestors t.toTypeLayer h base (List.mem_reverse.mp mem)

/-! ## Descendants -/

theorem superclass?_eq_some_iff {t parent : TypeModel} :
    t.superclass? = some parent ↔ t.ancestors = parent.toTypeLayer :: parent.ancestors := by
  unfold TypeModel.superclass?
  cases t.ancestors with
  | nil => exact ⟨nofun, nofun⟩
  | cons layer rest =>
    constructor
    · rintro ⟨⟩
      rfl
    · rintro ⟨⟩
      rfl

/-- **A name that a type lists leads to a subclass just if the type described under it extends the
listing one.** That only the names of the types are compared makes no difference. -/
theorem subclassBy_eq_ok_iff {base sub : TypeModel} (described : s.Describes base) {name : String} :
    subclassBy (describe s) base name = .ok sub ↔
      s.describe name = .ok sub ∧ sub.superclass? = some base := by
  constructor
  · intro found
    obtain ⟨t, described_sub, checked⟩ := ok_bind.mp found
    dsimp only at checked
    split at checked
    next same =>
      cases checked
      obtain ⟨parent, extends_, parent_name⟩ := Option.map_eq_some_iff.mp same
      -- the type that the subclass extends is the base, since it has its name
      have sub_described : s.Describes sub := ⟨name, described_sub⟩
      have parent_self := (sub_described.superclass extends_).self
      rw [parent_name, described.self] at parent_self
      cases parent_self
      exact ⟨described_sub, extends_⟩
    next => cases checked
  · rintro ⟨described_sub, extends_⟩
    refine ok_bind.mpr ⟨sub, described_sub, ?_⟩
    dsimp only
    rw [extends_, Option.map_some, if_pos rfl]
    rfl

/-- **A subclass that a type lists extends it.** -/
theorem extends_of_subclass {base sub : TypeModel} (described : s.Describes base)
    {subs : List TypeModel} (h : subclassesBy (describe s) base = .ok subs) (mem : sub ∈ subs) :
    s.Describes sub ∧ sub.ancestors = base.toTypeLayer :: base.ancestors := by
  obtain ⟨name, -, found⟩ := mem_of_mapM h mem
  obtain ⟨described_sub, extends_⟩ := (subclassBy_eq_ok_iff described).mp found
  exact ⟨⟨name, described_sub⟩, superclass?_eq_some_iff.mp extends_⟩

/-- A subclass has one ancestor more than its base. -/
theorem length_ancestors_of_subclass {base sub : TypeModel} (described : s.Describes base)
    {subs : List TypeModel} (h : subclassesBy (describe s) base = .ok subs) (mem : sub ∈ subs) :
    s.Describes sub ∧ sub.ancestors.length = base.ancestors.length + 1 := by
  obtain ⟨sub_described, above⟩ := extends_of_subclass described h mem
  exact ⟨sub_described, congrArg List.length above⟩

/-- A list of computations can be run in another way that gives the same. -/
theorem mapM_congr {α β : Type} {f g : α → Except Error β} {l : List α} (h : ∀ a ∈ l, f a = g a) :
    l.mapM f = l.mapM g := by
  induction l with
  | nil => rfl
  | cons a rest ih =>
    rw [List.mapM_cons, List.mapM_cons, h a List.mem_cons_self,
      ih fun b hb => h b (List.mem_cons_of_mem a hb)]

/-- **The descendants of a type do not depend on the bound.** -/
theorem descendantsBy_eq {base : TypeModel} (described : s.Describes base) {depth depth' : Nat}
    (enough : s.size ≤ depth + base.ancestors.length)
    (enough' : s.size ≤ depth' + base.ancestors.length) :
    descendantsBy (describe s) depth base = descendantsBy (describe s) depth' base := by
  induction depth generalizing depth' base with
  | zero =>
    have short := length_ancestors_lt described.self
    omega
  | succ depth ih =>
    cases depth' with
    | zero =>
      have short := length_ancestors_lt described.self
      omega
    | succ depth' =>
      unfold descendantsBy
      cases listed : subclassesBy (describe s) base with
      | error e => rfl
      | ok subs =>
        have each : ∀ sub ∈ subs, (do return sub :: (← descendantsBy (describe s) depth sub) :
              Except Error (List TypeModel)) =
            (do return sub :: (← descendantsBy (describe s) depth' sub)) := by
          intro sub mem
          obtain ⟨sub_described, longer⟩ := length_ancestors_of_subclass described listed mem
          have below : descendantsBy (describe s) depth sub = descendantsBy (describe s) depth' sub :=
            ih sub_described (by omega) (by omega)
          rw [below]
        exact congrArg (fun run : Except Error (List (List TypeModel)) => do
          let parts ← run
          return parts.flatten) (mapM_congr each)

end Orm.Schema
