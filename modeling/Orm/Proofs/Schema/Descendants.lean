import Mathlib.Logic.Relation
import Orm.Proofs.Schema.Requests

/-!
# `Proofs.Schema.Descendants` — the descendants of a type

The lists of subclasses are followed without remembering what has been seen, and they are written by
hand: a type may list itself, one that it extends, or another that lists it. The descent ends
nevertheless, because only a type that extends the one that lists it is followed, so that every step
down lengthens the ancestry, and no ancestry is longer than the schema. What is found are all types that
the lists lead to, each before its own descendants; and the descent fails just if some list that it
comes to names a type that does not extend the listing one, or that cannot be described.

## Contents
- **Lists.** `Schema.Lists`, `Schema.Mislists`, `subclasses_eq_error_iff`, `mem_subclasses_iff`.
- **Steps down.** `Schema.Descends`, `accessible`, `descent_induction`, `descendants_eq`.
- **Orders.** `Preorder`, `Preorder.mem_iff`, `preorder_of_descendants`.
- **Failures.** `below_eq_error_iff`, `descendants_eq_error_iff`.
- **Main result.** `descendants_reached`.
-/

namespace Orm

open Schema

/-! ## Lists -/

/-- A type lists another one. -/
def Schema.Lists (s : Schema) (t u : TypeModel) : Prop :=
  ∃ name ∈ t.subclasses, s.describe name = .ok u

/-- A type lists what it should not. -/
inductive Schema.Mislists (s : Schema) (t : TypeModel) : Prop where
  /-- The listed type cannot be described. -/
  | unknown {name : String} {e : Error} (listed : name ∈ t.subclasses)
      (fails : s.describe name = .error e)
  /-- The listed type does not extend the type directly. -/
  | foreign {name : String} {u : TypeModel} (listed : name ∈ t.subclasses)
      (described : s.describe name = .ok u) (other : u.superclass? ≠ some t)

/-- A descent goes on from a type to one of its subclasses. -/
def Schema.Descends (s : Schema) (t u : TypeModel) : Prop :=
  ∃ subs, s.subclasses t = .ok subs ∧ u ∈ subs

namespace Schema

variable {s : Schema}

/-- Where nothing is listed that should not be, every listed type extends the listing one. -/
theorem Lists.superclass {t u : TypeModel} (h : s.Lists t u) (orderly : ¬ s.Mislists t) :
    u.superclass? = some t := by
  obtain ⟨name, listed, described⟩ := h
  by_contra other
  exact orderly (.foreign listed described other)

/-- **The subclasses of a type cannot be listed just if it lists what it should not.** -/
theorem subclasses_eq_error_iff {t : TypeModel} (described : s.Describes t) :
    (∃ e, s.subclasses t = .error e) ↔ s.Mislists t := by
  constructor
  · rintro ⟨e, failed⟩
    obtain ⟨name, listed, wrong⟩ := error_of_mapM failed
    cases found : s.describe name with
    | error e' => exact .unknown listed found
    | ok u =>
      refine .foreign listed found fun extends_ => ?_
      have right := (subclassBy_eq_ok_iff described).mpr ⟨found, extends_⟩
      cases wrong.symm.trans right
  · intro wrong
    cases failed : s.subclasses t with
    | error e => exact ⟨e, rfl⟩
    | ok subs =>
      cases wrong with
      | unknown listed fails =>
        obtain ⟨u, right, -⟩ := exists_of_mapM failed listed
        cases fails.symm.trans ((subclassBy_eq_ok_iff described).mp right).1
      | foreign listed found other =>
        obtain ⟨u, right, -⟩ := exists_of_mapM failed listed
        obtain ⟨found', extends_⟩ := (subclassBy_eq_ok_iff described).mp right
        cases found.symm.trans found'
        exact absurd extends_ other

/-- The subclasses of a type are those that it lists. -/
theorem mem_subclasses_iff {t u : TypeModel} (described : s.Describes t) {subs : List TypeModel}
    (h : s.subclasses t = .ok subs) : u ∈ subs ↔ s.Lists t u := by
  constructor
  · intro mem
    obtain ⟨name, listed, right⟩ := mem_of_mapM h mem
    exact ⟨name, listed, ((subclassBy_eq_ok_iff described).mp right).1⟩
  · rintro ⟨name, listed, found⟩
    obtain ⟨v, right, mem⟩ := exists_of_mapM h listed
    cases found.symm.trans ((subclassBy_eq_ok_iff described).mp right).1
    exact mem

/-! ## Steps down -/

theorem Descends.describes {t u : TypeModel} (h : s.Descends t u) (described : s.Describes t) :
    s.Describes u ∧ u.ancestors.length = t.ancestors.length + 1 := by
  obtain ⟨subs, listed, mem⟩ := h
  exact length_ancestors_of_subclass described listed mem

/-- **No descent goes on for ever.** -/
theorem accessible {base : TypeModel} (described : s.Describes base) :
    Acc (fun sub t => s.Descends t sub) base := by
  -- what is left of the schema gets less with every step down
  induction left : s.size - base.ancestors.length using Nat.strong_induction_on generalizing base with
  | h left' ih =>
    refine .intro base fun sub down => ?_
    obtain ⟨sub_described, longer⟩ := down.describes described
    have short := length_ancestors_lt described.self
    exact ih _ (by omega) sub_described rfl

/-- What holds of a type as soon as it holds of its subclasses holds of every described type. -/
@[elab_as_elim]
theorem descent_induction {motive : TypeModel → Prop} {base : TypeModel} (described : s.Describes base)
    (step : ∀ t, s.Describes t → (∀ u, s.Descends t u → motive u) → motive t) : motive base := by
  induction accessible described with
  | intro t _ ih =>
    exact step t described fun u down => ih u down (down.describes described).1

/-- **The descendants of a type are its subclasses, each followed by its own descendants.** No bound is
left in this equation. -/
theorem descendants_eq {base : TypeModel} (described : s.Describes base) :
    s.descendants base = do
      let subs ← s.subclasses base
      let parts ← subs.mapM fun sub => do return sub :: (← s.descendants sub)
      return parts.flatten := by
  have enough : s.size ≤ s.size + base.ancestors.length := Nat.le_add_right _ _
  have more : s.size ≤ s.size + 1 + base.ancestors.length := by omega
  exact descendantsBy_eq described enough more

/-! ## Orders -/

/-- Types in the order in which a walk comes to them that starts with some names and follows the lists of
subclasses: a type, all that it leads to, and then what the next name leads to. -/
inductive Preorder (s : Schema) : List String → List TypeModel → Prop where
  | nil : Preorder s [] []
  | cons {name : String} {names : List String} {t : TypeModel} {below later : List TypeModel}
      (described : s.describe name = .ok t) (inside : Preorder s t.subclasses below)
      (rest : Preorder s names later) : Preorder s (name :: names) (t :: (below ++ later))

/-- A type is on a list just if one of the names leads to it. -/
theorem Preorder.mem_iff {names : List String} {ts : List TypeModel} (h : Preorder s names ts)
    {t : TypeModel} : t ∈ ts ↔ ∃ name ∈ names, ∃ u, s.describe name = .ok u ∧
      Relation.ReflTransGen s.Lists u t := by
  induction h with
  | nil => exact iff_of_false List.not_mem_nil fun ⟨_, mem, _⟩ => List.not_mem_nil mem
  | @cons name names first below later described inside rest ih ih' =>
    have here : (t = first ∨ t ∈ below) ↔
        ∃ u, s.describe name = .ok u ∧ Relation.ReflTransGen s.Lists u t := by
      constructor
      · rintro (rfl | mem)
        · exact ⟨t, described, .refl⟩
        · obtain ⟨name', listed, u, found, reached⟩ := ih.mp mem
          exact ⟨first, described, .head ⟨name', listed, found⟩ reached⟩
      · rintro ⟨u, found, reached⟩
        cases described.symm.trans found
        rcases Relation.ReflTransGen.cases_head reached with rfl | ⟨v, ⟨name', listed, found'⟩, reached'⟩
        · exact .inl rfl
        · exact .inr (ih.mpr ⟨name', listed, v, found', reached'⟩)
    rw [List.mem_cons, List.mem_append, ← or_assoc, here, ih', List.exists_mem_cons_iff]

theorem preorder_of_mapM {base : TypeModel} (described : s.Describes base) {names : List String}
    {subs : List TypeModel} {parts : List (List TypeModel)}
    (listed : names.mapM (subclassBy (describe s) base) = .ok subs)
    (inside : ∀ sub ∈ subs, ∀ below, s.descendants sub = .ok below → Preorder s sub.subclasses below)
    (run : subs.mapM (fun sub => do return sub :: (← s.descendants sub)) = .ok parts) :
    Preorder s names parts.flatten := by
  induction names generalizing subs parts with
  | nil =>
    cases listed
    cases run
    exact .nil
  | cons name rest ih =>
    obtain ⟨sub, others, first, more, rfl⟩ := mapM_cons_ok.mp listed
    obtain ⟨part, later, one, run', rfl⟩ := mapM_cons_ok.mp run
    obtain ⟨below, deeper, made⟩ := ok_bind.mp one
    cases made
    obtain ⟨here, elsewhere⟩ := List.forall_mem_cons.mp inside
    exact .cons ((subclassBy_eq_ok_iff described).mp first).1 (here below deeper)
      (ih more elsewhere run')

/-- **Descendants are listed in preorder.** -/
theorem preorder_of_descendants {base : TypeModel} (described : s.Describes base) :
    ∀ ts, s.descendants base = .ok ts → Preorder s base.subclasses ts := by
  refine descent_induction described fun t described ih => ?_
  intro ts h
  rw [descendants_eq described] at h
  obtain ⟨subs, listed, rest⟩ := ok_bind.mp h
  obtain ⟨parts, run, result⟩ := ok_bind.mp rest
  cases result
  exact preorder_of_mapM described listed (fun sub mem => ih sub ⟨subs, listed, mem⟩) run

/-! ## Failures -/

/-- The descendants below some types cannot be listed just if those of one of the types cannot be. -/
theorem below_eq_error_iff {subs : List TypeModel} :
    (∃ e, (do
        let parts ← subs.mapM fun sub => do return sub :: (← s.descendants sub)
        return parts.flatten) = .error e) ↔
      ∃ sub ∈ subs, ∃ e, s.descendants sub = .error e := by
  constructor
  · rintro ⟨e, failed⟩
    rcases error_bind.mp failed with nested | ⟨_, _, done⟩
    case inr => cases done
    obtain ⟨sub, mem, wrong⟩ := error_of_mapM nested
    rcases error_bind.mp wrong with deeper | ⟨_, _, done⟩
    · exact ⟨sub, mem, e, deeper⟩
    · cases done
  · rintro ⟨sub, mem, e, deeper⟩
    generalize whole : (do
      let parts ← subs.mapM fun sub => do return sub :: (← s.descendants sub)
      return parts.flatten : Except Error (List TypeModel)) = outcome
    cases outcome with
    | error e' => exact ⟨e', rfl⟩
    | ok ts =>
      -- a list with a part that fails is not completed
      obtain ⟨parts, run, -⟩ := ok_bind.mp whole
      obtain ⟨part, one, -⟩ := exists_of_mapM run mem
      obtain ⟨ts', deeper', -⟩ := ok_bind.mp one
      cases deeper.symm.trans deeper'

/-- **The descendants of a type cannot be listed just if the lists lead from it to a type that lists what
it should not.** -/
theorem descendants_eq_error_iff {base : TypeModel} (described : s.Describes base) :
    (∃ e, s.descendants base = .error e) ↔
      ∃ t, Relation.ReflTransGen s.Lists base t ∧ s.Mislists t := by
  refine descent_induction described fun t described ih => ?_
  rw [descendants_eq described]
  cases listed : s.subclasses t with
  | error e =>
    exact iff_of_true ⟨e, rfl⟩ ⟨t, .refl, (subclasses_eq_error_iff described).mp ⟨e, listed⟩⟩
  | ok subs =>
    have orderly : ¬ s.Mislists t := fun wrong => by
      obtain ⟨e, failed⟩ := (subclasses_eq_error_iff described).mpr wrong
      cases listed.symm.trans failed
    have below := fun u (mem : u ∈ subs) => ih u ⟨subs, listed, mem⟩
    refine below_eq_error_iff.trans ⟨?_, ?_⟩
    · rintro ⟨sub, mem, failed⟩
      obtain ⟨v, reached, wrong⟩ := (below sub mem).mp failed
      exact ⟨v, .head ((mem_subclasses_iff described listed).mp mem) reached, wrong⟩
    · rintro ⟨v, reached, wrong⟩
      rcases Relation.ReflTransGen.cases_head reached with rfl | ⟨sub, lists, reached'⟩
      · exact absurd wrong orderly
      · have mem := (mem_subclasses_iff described listed).mpr lists
        exact ⟨sub, mem, (below sub mem).mpr ⟨v, reached', wrong⟩⟩

/-- What the lists lead to extends the type where they start, if nothing on the way is listed that should
not be. -/
theorem isA_of_reached {base t : TypeModel} (reached : Relation.ReflTransGen s.Lists base t)
    (orderly : ∀ u, Relation.ReflTransGen s.Lists base u → ¬ s.Mislists u) :
    t.isA base.name = true := by
  induction reached with
  | refl => exact List.any_eq_true.mpr ⟨_, List.mem_cons_self, beq_self_eq_true _⟩
  | @tail lister t reached lists ih =>
    have above := superclass?_eq_some_iff.mp (lists.superclass (orderly lister reached))
    rw [TypeModel.isA, List.any_cons, above]
    exact Bool.or_eq_true_iff.mpr (.inr ih)

/-! ## Main result -/

/-- **The descendants of a described type.** The descent ends and does what it would do without a bound.
When it succeeds, it lists in preorder what the lists of subclasses lead to; each of these types is one of
the base and extends whatever type on the way lists it. It fails just if a type that the lists lead to
lists one that cannot be described or that does not extend it. A catalog answers the same, whatever it has
described before. -/
theorem descendants_reached {base : TypeModel} (described : s.Describes base) :
    Acc (fun sub t => s.Descends t sub) base ∧
    (s.descendants base = do
      let subs ← s.subclasses base
      let parts ← subs.mapM fun sub => do return sub :: (← s.descendants sub)
      return parts.flatten) ∧
    (∀ ts, s.descendants base = .ok ts →
      Preorder s base.subclasses ts ∧
      (∀ t, t ∈ ts ↔ Relation.TransGen s.Lists base t) ∧
      ∀ t ∈ ts, t.isA base.name = true ∧
        ∀ lister ∈ base :: ts, s.Lists lister t → t.superclass? = some lister) ∧
    ((∃ e, s.descendants base = .error e) ↔
      ∃ t, Relation.ReflTransGen s.Lists base t ∧ s.Mislists t) ∧
    ∀ c : Catalog, c.Reflects s → (c.ask (Catalog.descendants base)).1 = s.descendants base := by
  refine ⟨accessible described, descendants_eq described, fun ts h => ?_,
    descendants_eq_error_iff described,
    fun c reflects => ((Catalog.gives_descendants base).run reflects).1⟩
  have orderly : ∀ u, Relation.ReflTransGen s.Lists base u → ¬ s.Mislists u := by
    intro u reached wrong
    obtain ⟨e, failed⟩ := (descendants_eq_error_iff described).mpr ⟨u, reached, wrong⟩
    cases h.symm.trans failed
  have order := preorder_of_descendants described ts h
  have reached_iff : ∀ t, t ∈ ts ↔ Relation.TransGen s.Lists base t := fun t => by
    rw [order.mem_iff, Relation.TransGen.head'_iff]
    constructor
    · rintro ⟨name, listed, u, found, reached⟩
      exact ⟨u, ⟨name, listed, found⟩, reached⟩
    · rintro ⟨u, ⟨name, listed, found⟩, reached⟩
      exact ⟨name, listed, u, found, reached⟩
  have reached : ∀ t ∈ base :: ts, Relation.ReflTransGen s.Lists base t := fun t mem => by
    rcases List.mem_cons.mp mem with rfl | below
    · exact .refl
    · exact ((reached_iff t).mp below).to_reflTransGen
  refine ⟨order, reached_iff, fun t mem => ⟨?_, fun lister on_way lists => ?_⟩⟩
  · exact isA_of_reached (reached t (List.mem_cons_of_mem _ mem)) orderly
  · exact lists.superclass (orderly lister (reached lister on_way))

/-- Animals are listed below each other. A riddle lists the sphinx that lists it. -/
def bestiary : Schema where
  sources := [⟨.runtime, [
    { name := "Animal", subclasses := ["Mammal", "Bird"] },
    { name := "Mammal", superclass := some "Animal", subclasses := ["Dog", "Cat"] },
    { name := "Dog", superclass := some "Mammal" },
    { name := "Cat", superclass := some "Mammal" },
    { name := "Bird", superclass := some "Animal" },
    { name := "Sphinx", subclasses := ["Riddle"] },
    { name := "Riddle", superclass := some "Sphinx", subclasses := ["Sphinx"] }]⟩]

theorem descendants_reached_bestiary :
    (∃ base ts, bestiary.describe "Animal" = .ok base ∧ bestiary.descendants base = .ok ts ∧
      ts.map (·.name) = ["Mammal", "Dog", "Cat", "Bird"] ∧ Preorder bestiary base.subclasses ts ∧
      (∀ t, t ∈ ts ↔ Relation.TransGen bestiary.Lists base t) ∧
      ((Catalog.ofSchema bestiary).ask (Catalog.descendants base)).1 = .ok ts) ∧
    ∃ sphinx riddle, bestiary.describe "Sphinx" = .ok sphinx ∧ bestiary.describe "Riddle" = .ok riddle ∧
      bestiary.Lists sphinx riddle ∧ bestiary.Lists riddle sphinx ∧
      Acc (fun sub t => bestiary.Descends t sub) sphinx ∧ ∃ e, bestiary.descendants sphinx = .error e := by
  constructor
  · obtain ⟨⟨base, ts⟩, made, names⟩ := ok_of_map
      (x := do
        let base ← bestiary.describe "Animal"
        let ts ← bestiary.descendants base
        return (base, ts))
      (f := fun p => p.2.map (·.name)) (b := ["Mammal", "Dog", "Cat", "Bird"]) (by decide)
    obtain ⟨_, described, rest⟩ := ok_bind.mp made
    obtain ⟨_, listed, same⟩ := ok_bind.mp rest
    cases same
    obtain ⟨-, -, succeeds, -, catalogs⟩ := descendants_reached ⟨_, described⟩
    obtain ⟨order, reached, -⟩ := succeeds ts listed
    exact ⟨base, ts, described, listed, names, order, reached,
      (catalogs _ (Catalog.reflects_ofSchema _)).trans listed⟩
  · obtain ⟨⟨sphinx, riddle⟩, made, shown⟩ := ok_of_map
      (x := do
        let sphinx ← bestiary.describe "Sphinx"
        let riddle ← bestiary.describe "Riddle"
        return (sphinx, riddle))
      (f := fun p => (p.1.subclasses, p.2.subclasses, p.1.superclass?.isNone))
      (b := (["Riddle"], ["Sphinx"], true)) (by decide)
    obtain ⟨_, described, rest⟩ := ok_bind.mp made
    obtain ⟨_, described', same⟩ := ok_bind.mp rest
    cases same
    simp only [Prod.mk.injEq] at shown
    obtain ⟨lists, lists', root⟩ := shown
    have first : "Riddle" ∈ sphinx.subclasses := lists ▸ List.mem_cons_self
    have second : "Sphinx" ∈ riddle.subclasses := lists' ▸ List.mem_cons_self
    have wrong : bestiary.Mislists riddle := by
      refine .foreign second described fun extends_ => ?_
      rw [extends_] at root
      cases root
    obtain ⟨ends, -, -, fails, -⟩ := descendants_reached ⟨_, described⟩
    exact ⟨sphinx, riddle, described, described', ⟨_, first, described'⟩, ⟨_, second, described⟩, ends,
      fails.mpr ⟨riddle, .single ⟨_, first, described'⟩, wrong⟩⟩

end Schema

end Orm
