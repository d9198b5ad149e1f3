import Mathlib.Logic.Hydra
import Orm.Proofs.Schema.Bounds
import Orm.Schema.Catalog

/-!
# `Proofs.Schema.Requests` — requests to a catalog that others use

A catalog keeps what has been described, also on behalf of requests that fail later, and several requests
may take turns on it. What a request is answered does not depend on what is kept, as long as everything
that is kept is what the schema describes; and requests keep nothing else. So a catalog stays sound,
whoever uses it and in which order, and answers are those of the schema.

That a type is looked for before the chain of subclasses is checked makes no difference: a type that can
be described does not lie on a chain that leads to it.

## Contents
- **Sequences.** `bind_answer`, `bind_bind`, and `LawfulMonad Request`.
- **Answers.** `Catalog.Reflects`, `Request.Gives`, `Gives.step`, `Gives.run`, `Gives.bind`,
  `Gives.mapM`.
- **Turns.** `Turn`, `turns_end`, `Gives.turns`.
- **Descriptions.** `Chain`, `Chain.apart`, `gives_describe`, `describeFrom_eq_of_enough`.
- **Descendants.** `gives_subclassesBy`, `gives_descendants`.
-/

namespace Orm

open Schema

namespace Catalog

/-! ## Sequences -/

namespace Request

variable {α β γ : Type}

theorem bind_answer (r : Request α) : r.bind (fun a => answer (.ok a)) = r := by
  induction r with
  | answer outcome => cases outcome <;> rfl
  | declarations next ih => exact congrArg _ (funext ih)
  | look name next ih => exact congrArg _ (funext ih)
  | keep name t next ih => exact congrArg _ (funext ih)

theorem bind_bind (r : Request α) (f : α → Request β) (g : β → Request γ) :
    (r.bind f).bind g = r.bind fun a => (f a).bind g := by
  induction r with
  | answer outcome => cases outcome <;> rfl
  | declarations next ih => exact congrArg _ (funext ih)
  | look name next ih => exact congrArg _ (funext ih)
  | keep name t next ih => exact congrArg _ (funext ih)

instance : LawfulMonad Request :=
  LawfulMonad.mk' Request bind_answer (fun _ _ => rfl) bind_bind

end Request

/-! ## Answers -/

/-- A catalog of a schema that keeps only what the schema describes. -/
structure Reflects (c : Catalog) (s : Schema) : Prop where
  schema : c.schema = s
  sound : ∀ name t, c.kept? name = some t → s.describe name = .ok t

/-- A request gives an answer whatever is kept of what the schema describes, and it keeps nothing else. -/
inductive Request.Gives {α : Type} (s : Schema) : Request α → Except Error α → Prop where
  | answer {x : Except Error α} : Gives s (.answer x) x
  | declarations {next : Schema → Request α} {x : Except Error α} (later : Gives s (next s) x) :
      Gives s (.declarations next) x
  | look {name : String} {next : Option TypeModel → Request α} {x : Except Error α}
      (missing : Gives s (next none) x)
      (found : ∀ t, s.describe name = .ok t → Gives s (next (some t)) x) :
      Gives s (.look name next) x
  | keep {name : String} {t : TypeModel} {next : TypeModel → Request α} {x : Except Error α}
      (described : s.describe name = .ok t) (later : Gives s (next t) x) :
      Gives s (.keep name t next) x

section

variable {α β : Type} {s : Schema} {c c' : Catalog} {r r' : Request α} {x : Except Error α}

theorem reflects_ofSchema (s : Schema) : (ofSchema s).Reflects s :=
  ⟨rfl, fun _ _ none => absurd none.symm (Option.some_ne_none _)⟩

theorem kept?_keep (c : Catalog) (name other : String) (t : TypeModel) :
    (c.keep name t).kept? other =
      if other = name then some ((c.kept? name).getD t) else c.kept? other := by
  unfold keep
  cases kept : c.kept? name with
  | some old =>
    rw [Option.isSome_some, if_pos rfl, Option.getD_some]
    split
    next here => rw [here, kept]
    next => rfl
  | none =>
    rw [Option.isSome_none, if_neg Bool.false_ne_true, Option.getD_none]
    show List.lookup other ((name, t) :: c.kept) = _
    rw [List.lookup_cons]
    by_cases here : other = name
    · rw [here, beq_self_eq_true, if_pos rfl]
    · rw [beq_eq_false_iff_ne.mpr here, if_neg here]
      rfl

/-- What is kept is what was described, whether it was kept before or not. -/
theorem Reflects.keep (h : c.Reflects s) {name : String} {t : TypeModel}
    (described : s.describe name = .ok t) :
    (c.kept? name).getD t = t ∧ (c.keep name t).Reflects s := by
  have same : (c.kept? name).getD t = t := by
    cases kept : c.kept? name with
    | none => rfl
    | some old => exact Except.ok.inj ((h.sound name old kept).symm.trans described)
  refine ⟨same, ?_, fun other u found => ?_⟩
  · unfold Catalog.keep
    split
    · exact h.schema
    · exact h.schema
  · rw [kept?_keep, same] at found
    split at found
    next here =>
      cases found
      rw [here]
      exact described
    next => exact h.sound other u found

namespace Request.Gives

/-- **A step leads to a request that gives the same**, and the catalog stays sound. -/
theorem step (h : r.Gives s x) (reflects : c.Reflects s) (taken : r.step c = some (r', c')) :
    r'.Gives s x ∧ c'.Reflects s := by
  cases h with
  | answer => cases taken
  | declarations later =>
    cases taken
    rw [reflects.schema]
    exact ⟨later, reflects⟩
  | @look name next _ missing found =>
    cases taken
    refine ⟨?_, reflects⟩
    cases kept : c.kept? name with
    | none => exact missing
    | some t => exact found t (reflects.sound name t kept)
  | keep described later =>
    cases taken
    obtain ⟨same, reflects'⟩ := reflects.keep described
    rw [same]
    exact ⟨later, reflects'⟩

/-- **A request gives its answer on every sound catalog**, and leaves it sound. -/
theorem run (h : r.Gives s x) (reflects : c.Reflects s) :
    (r.run c).1 = x ∧ (r.run c).2.Reflects s := by
  induction h generalizing c with
  | answer => exact ⟨rfl, reflects⟩
  | declarations _ ih =>
    unfold Request.run
    rw [reflects.schema]
    exact ih reflects
  | @look name next _ _ _ missing found =>
    unfold Request.run
    cases kept : c.kept? name with
    | none => exact missing reflects
    | some t => exact found t (reflects.sound name t kept) reflects
  | keep described _ ih =>
    unfold Request.run
    obtain ⟨same, reflects'⟩ := reflects.keep described
    rw [same]
    exact ih reflects'

/-- A request that has been answered gives its answer. -/
theorem eq_of_answer {y : Except Error α} (h : (Request.answer y).Gives s x) : y = x := by
  cases h
  rfl

/-- A request and then one that depends on its answer. -/
theorem bind {f : α → Request β} {g : α → Except Error β} (h : r.Gives s x)
    (later : ∀ a, x = .ok a → (f a).Gives s (g a)) : (r >>= f).Gives s (x >>= g) := by
  show (r.bind f).Gives s _
  induction h with
  | @answer x =>
    cases x with
    | error e => exact .answer
    | ok a => exact later a rfl
  | declarations _ ih => exact .declarations (ih later)
  | look _ _ missing found => exact .look (missing later) fun t described => found t described later
  | keep described _ ih => exact .keep described (ih later)

theorem map (f : α → β) (h : r.Gives s x) : (f <$> r).Gives s (f <$> x) := by
  rw [← bind_pure_comp, ← bind_pure_comp]
  exact h.bind fun a _ => .answer

/-- Requests for the items of a list, one after the other. -/
theorem mapM {f : α → Request β} {g : α → Except Error β} {l : List α}
    (each : ∀ a ∈ l, (f a).Gives s (g a)) : (l.mapM f).Gives s (l.mapM g) := by
  induction l with
  | nil => exact .answer
  | cons a rest ih =>
    rw [List.mapM_cons, List.mapM_cons]
    refine (each a List.mem_cons_self).bind fun b _ => ?_
    exact (ih fun a' mem => each a' (List.mem_cons_of_mem a mem)).bind fun bs _ => .answer

end Request.Gives

/-! ## Turns -/

/-- One of the requests that share a catalog takes its next step. -/
inductive Turn : Catalog × List (Request α) → Catalog × List (Request α) → Prop where
  | take {c c' : Catalog} {waiting : List (Request α)} {n : Nat} {r r' : Request α}
      (at_n : waiting[n]? = some r) (taken : r.step c = some (r', c')) :
      Turn (c, waiting) (c', waiting.set n r')

/-- What is left of a request after a step of it. -/
def Request.Next (r' r : Request α) : Prop :=
  ∃ c c', r.step c = some (r', c')

/-- A request has only so many steps, whatever it finds. -/
theorem wellFounded_next : WellFounded (Request.Next (α := α)) := by
  refine ⟨fun r => ?_⟩
  induction r with
  | answer x => exact ⟨_, fun _ ⟨_, _, taken⟩ => nomatch taken⟩
  | declarations next ih =>
    refine ⟨_, fun _ ⟨c, _, taken⟩ => ?_⟩
    cases taken
    exact ih c.schema
  | look name next ih =>
    refine ⟨_, fun _ ⟨c, _, taken⟩ => ?_⟩
    cases taken
    exact ih (c.kept? name)
  | keep name t next ih =>
    refine ⟨_, fun _ ⟨c, _, taken⟩ => ?_⟩
    cases taken
    exact ih ((c.kept? name).getD t)

/-- A turn replaces one request by what is left of it. -/
theorem Turn.cutExpand {p q : Catalog × List (Request α)} (turn : Turn p q) :
    Relation.CutExpand Request.Next (q.2 : Multiset (Request α)) p.2 := by
  obtain @⟨c, c', waiting, n, r, r', at_n, taken⟩ := turn
  obtain ⟨inside, rfl⟩ := List.getElem?_eq_some_iff.mp at_n
  -- all requests but one are the same before and after the turn
  have before := (List.getElem_cons_eraseIdx_perm inside).symm
  have after := List.set_perm_cons_eraseIdx inside r'
  dsimp only
  rw [Multiset.coe_eq_coe.mpr before, Multiset.coe_eq_coe.mpr after, ← Multiset.cons_coe,
    ← Multiset.cons_coe, ← Multiset.singleton_add, ← Multiset.singleton_add]
  exact Relation.cutExpand_single_add (r := Request.Next) ⟨c, c', taken⟩ _

/-- **Requests do not take turns for ever**, in whatever order. -/
theorem turns_end : WellFounded fun q p : Catalog × List (Request α) => Turn p q := by
  refine Subrelation.wf (r := InvImage (Relation.CutExpand Request.Next)
    fun p : Catalog × List (Request α) => (p.2 : Multiset (Request α))) ?_
    (InvImage.wf _ wellFounded_next.cutExpand)
  intro q p turn
  exact turn.cutExpand

/-- Nothing can be done any more when all requests have been answered, and only then. -/
theorem exists_turn_iff {waiting : List (Request α)} :
    (∃ q, Turn (c, waiting) q) ↔ ∃ r ∈ waiting, ∀ x, r ≠ .answer x := by
  constructor
  · rintro ⟨_, at_n, taken⟩
    refine ⟨_, List.mem_of_getElem? at_n, ?_⟩
    rintro x rfl
    cases taken
  · rintro ⟨r, mem, open_⟩
    obtain ⟨n, at_n⟩ := List.mem_iff_getElem?.mp mem
    cases r with
    | answer x => exact absurd rfl (open_ x)
    | declarations next => exact ⟨_, .take at_n rfl⟩
    | look name next => exact ⟨_, .take at_n rfl⟩
    | keep name t next => exact ⟨_, .take at_n rfl⟩

/-- When no turn is left, every request has been answered. -/
theorem answered_of_settled {waiting : List (Request α)} (settled : ∀ q, ¬ Turn (c, waiting) q)
    {r : Request α} (mem : r ∈ waiting) : ∃ x, r = .answer x := by
  by_contra waits
  obtain ⟨q, turn⟩ := exists_turn_iff.mpr ⟨r, mem, fun x same => waits ⟨x, same⟩⟩
  exact settled q turn

/-- **Each of the requests that take turns gives its own answer**, at every time. -/
theorem Request.Gives.turns {p q : Catalog × List (Request α)}
    (turns : Relation.ReflTransGen Turn p q) (reflects : p.1.Reflects s) {own : Nat → Except Error α}
    (gives : ∀ (n : Nat) (r : Request α), p.2[n]? = some r → r.Gives s (own n)) :
    q.1.Reflects s ∧ q.2.length = p.2.length ∧
      ∀ (n : Nat) (r : Request α), q.2[n]? = some r → r.Gives s (own n) := by
  induction turns with
  | refl => exact ⟨reflects, rfl, gives⟩
  | tail _ turn ih =>
    obtain ⟨reflects, length, gives⟩ := ih
    obtain @⟨_, _, _, n, r, r', at_n, taken⟩ := turn
    obtain ⟨later, reflects'⟩ := (gives n r at_n).step reflects taken
    refine ⟨reflects', List.length_set.trans length, fun m r'' at_m => ?_⟩
    dsimp only at at_m
    rw [List.getElem?_set] at at_m
    split at at_m
    next here =>
      split at at_m
      next =>
        cases at_m
        exact here ▸ later
      next => cases at_m
    next => exact gives m r'' at_m

end

/-! ## Descriptions -/

variable {s : Schema}

/-- The types above a described type are described, each with the ancestors above it. -/
theorem exists_of_mem_ancestors {t : TypeModel} (h : s.Describes t) {name : String}
    (mem : name ∈ t.ancestors.map (·.name)) :
    ∃ u, s.describe name = .ok u ∧ u.ancestry <:+ t.ancestors.map (·.name) := by
  obtain ⟨own, above⟩ := t
  induction above generalizing own with
  | nil => cases mem
  | cons parent rest ih =>
    have described : s.Describes ⟨parent, rest⟩ := h.superclass rfl
    rcases List.mem_cons.mp mem with rfl | higher
    · exact ⟨⟨parent, rest⟩, described.self, List.suffix_refl _⟩
    · obtain ⟨u, found, inside⟩ := ih parent described higher
      exact ⟨u, found, inside.trans (List.suffix_cons _ _)⟩

/-- A chain of subclasses that leads to a name: every type on it that can be described has the named one
above it. -/
structure Chain (s : Schema) (chain : List String) (name : String) : Prop where
  distinct : chain.Nodup
  declared : chain ⊆ s.names
  above : ∀ n ∈ chain, ∀ t, s.describe n = .ok t → name ∈ t.ancestors.map (·.name)

namespace Chain

variable {chain : List String} {name parent : String} {decl : TypeDecl}

theorem nil (s : Schema) (name : String) : Chain s [] name :=
  ⟨List.nodup_nil, List.nil_subset _, fun _ mem => absurd mem List.not_mem_nil⟩

/-- A chain leads on to the parent. -/
theorem snoc (h : Chain s chain name) (fresh : name ∉ chain) (found : s.find? name = some decl)
    (extends_ : decl.superclass = some parent) : Chain s (chain ++ [name]) parent := by
  have direct : ∀ t, s.describe name = .ok t → parent ∈ t.ancestors.map (·.name) := by
    intro t described
    obtain ⟨-, decl', own, found', -, -, shape⟩ := describeFrom_eq_ok_iff.mp described
    cases found.symm.trans found'
    rcases shape with ⟨root, -⟩ | ⟨up, p, extends', run, rfl⟩
    · cases extends_.symm.trans root
    · cases extends_.symm.trans extends'
      rw [← (ancestry_of_describeFrom run).1]
      exact List.mem_cons_self
  constructor
  case distinct => exact nodup_concat h.distinct fresh
  case declared =>
    exact List.append_subset.mpr
      ⟨h.declared, List.cons_subset.mpr ⟨mem_names_of_find? found, List.nil_subset _⟩⟩
  case above =>
    intro n mem t described
    rcases List.mem_append.mp mem with before | here
    · obtain ⟨u, found_u, inside⟩ :=
        exists_of_mem_ancestors ⟨n, described⟩ (h.above n before t described)
      exact inside.subset (List.mem_cons_of_mem _ (direct u found_u))
    · rw [List.mem_singleton.mp here] at described
      exact direct t described

/-- **No ancestor of a described type lies on a chain that leads to it.** -/
theorem apart (h : Chain s chain name) {t : TypeModel} (described : s.describe name = .ok t) :
    ∀ n ∈ t.ancestry, n ∉ chain := by
  intro n inherited mem
  -- going up from `n` leads to `name`, and going up from `name` leads to `n`
  obtain ⟨u, found, below⟩ : ∃ u, s.describe n = .ok u ∧ u.ancestry <:+ t.ancestry := by
    rcases List.mem_cons.mp inherited with rfl | higher
    · exact ⟨t, Describes.self ⟨name, described⟩, List.suffix_refl _⟩
    · obtain ⟨u, found, inside⟩ := exists_of_mem_ancestors ⟨name, described⟩ higher
      exact ⟨u, found, inside.trans (List.suffix_cons _ _)⟩
  obtain ⟨v, found', above⟩ := exists_of_mem_ancestors ⟨n, found⟩ (h.above n mem u found)
  cases described.symm.trans found'
  have shorter := above.length_le
  have longer := below.length_le
  simp only [TypeModel.ancestry, List.map_cons, List.length_cons] at shorter longer
  omega

/-- What can be described can be described along a chain that leads to it. -/
theorem describeFrom_eq (h : Chain s chain name) {fuel : Nat} (enough : s.size < fuel + chain.length)
    {t : TypeModel} (described : s.describe name = .ok t) :
    s.describeFrom fuel chain name = .ok t := by
  have apart := h.apart described
  obtain ⟨-, distinct, declared, -⟩ := ancestry_of_describeFrom described
  have whole : (chain ++ t.ancestry).length ≤ s.size :=
    length_le_size (List.nodup_append.mpr ⟨h.distinct, distinct, fun a ha b hb same =>
      apart b hb (same ▸ ha)⟩) (List.append_subset.mpr ⟨h.declared, declared⟩)
  refine describeFrom_of_describeFrom described ?_ apart
  simp only [TypeModel.ancestry, List.length_append, List.length_map, List.length_cons] at whole
  omega

end Chain

/-- A type is described on top of what it extends, and then it is kept. -/
theorem gives_share {fuel : Nat} {chain : List String} {name : String} {decl : TypeDecl}
    {r : Request (Option TypeModel)} {x : Except Error (Option TypeModel)} (above : r.Gives s x)
    (whole : s.describeFrom fuel chain name = do
      let parent ← x
      let own ← describeLayer s decl
      return .extending own parent) :
    Request.Gives s (do
      let parent ← r
      let own ← (describeLayer s decl : Except Error TypeLayer)
      share name (.extending own parent)) (s.describeFrom fuel chain name) := by
  rw [whole]
  refine above.bind fun parent described => ?_
  refine Request.Gives.bind (r := .answer (describeLayer s decl)) .answer fun own made => ?_
  refine .keep (describe_of_describeFrom (whole.trans ?_)) .answer
  exact ok_bind.mpr ⟨parent, described, ok_bind.mpr ⟨own, made, rfl⟩⟩

/-- **A catalog describes a type as the schema does**, along every chain. -/
theorem gives_describeFrom {fuel : Nat} {chain : List String} {name : String}
    (h : Chain s chain name) (enough : s.size < fuel + chain.length) :
    (describeFrom s fuel chain name).Gives s (s.describeFrom fuel chain name) := by
  induction fuel generalizing chain name with
  | zero => exact .answer
  | succ fuel ih =>
    refine .look ?_ fun t described => ?_
    case refine_2 =>
      rw [h.describeFrom_eq enough described]
      exact .answer
    -- nothing is kept under the name, so both go on in the same way
    show Request.Gives s (if chain.contains name = true then _ else _) _
    have opened := Schema.describeFrom.eq_2 s chain name fuel
    by_cases seen : chain.contains name = true
    · rw [opened, if_pos seen, if_pos seen]
      exact .answer
    rw [if_neg seen]
    rw [if_neg seen] at opened
    cases found : s.find? name with
    | none =>
      rw [opened, found]
      exact .answer
    | some decl =>
      rw [found] at opened
      dsimp only at opened ⊢
      by_cases nameless : decl.name.isEmpty = true
      · rw [opened, if_pos nameless, if_pos nameless]
        exact .answer
      rw [if_neg nameless]
      rw [if_neg nameless] at opened
      have fresh : name ∉ chain := fun mem => seen (List.contains_iff_mem.mpr mem)
      cases extends_ : decl.superclass with
      | none =>
        rw [extends_] at opened
        exact gives_share (x := .ok none) .answer opened
      | some parent =>
        rw [extends_] at opened
        have longer : s.size < fuel + (chain ++ [name]).length := by
          rw [List.length_append, List.length_singleton]
          omega
        exact gives_share ((ih (h.snoc fresh found extends_) longer).map some) opened

theorem gives_describe (name : String) : (describe name).Gives s (s.describe name) :=
  .declarations (gives_describeFrom (Chain.nil s name) (Nat.lt_succ_self _))

/-- **What a request for a type does is not limited by the bound**: with any higher one it takes the same
steps. -/
theorem describeFrom_eq {chain : List String} (distinct : chain.Nodup) (declared : chain ⊆ s.names)
    {fuel fuel' : Nat} (enough : s.size < fuel + chain.length)
    (enough' : s.size < fuel' + chain.length) (name : String) :
    describeFrom s fuel chain name = describeFrom s fuel' chain name := by
  have short := length_le_size distinct declared
  induction fuel generalizing fuel' chain name with
  | zero => omega
  | succ fuel ih =>
    cases fuel' with
    | zero => omega
    | succ fuel' =>
      rw [describeFrom, describeFrom]
      by_cases seen : chain.contains name = true
      · simp only [if_pos seen]
      cases found : s.find? name with
      | none => rfl
      | some decl =>
        cases extends_ : decl.superclass with
        | none => simp only [extends_]
        | some parent =>
          -- the name joins the chain, which makes up for the step down
          have fresh : name ∉ chain := fun mem => seen (List.contains_iff_mem.mpr mem)
          have distinct' : (chain ++ [name]).Nodup := nodup_concat distinct fresh
          have declared' : chain ++ [name] ⊆ s.names := List.append_subset.mpr
            ⟨declared, List.cons_subset.mpr ⟨mem_names_of_find? found, List.nil_subset _⟩⟩
          have longer : (chain ++ [name]).length = chain.length + 1 := List.length_append
          have above : describeFrom s fuel (chain ++ [name]) parent =
              describeFrom s fuel' (chain ++ [name]) parent :=
            ih distinct' declared' (by omega) (by omega) parent (length_le_size distinct' declared')
          simp only [extends_, above]

/-- Describing a type takes no more steps than there are declarations. -/
theorem describeFrom_eq_of_enough {fuel : Nat} (enough : s.size < fuel) (name : String) :
    describeFrom s fuel [] name = describeFrom s (s.size + 1) [] name :=
  describeFrom_eq List.nodup_nil (List.nil_subset _) (by simpa using enough) (by simp) name

/-! ## Descendants -/

theorem gives_subclassesBy (base : TypeModel) :
    Request.Gives s (subclassesBy Catalog.describe base) (subclassesBy s.describe base) := by
  refine Request.Gives.mapM fun name _ => (gives_describe name).bind fun sub _ => ?_
  dsimp only
  split
  · exact .answer
  · exact .answer

theorem gives_descendantsBy (depth : Nat) (base : TypeModel) :
    Request.Gives s (descendantsBy Catalog.describe depth base) (descendantsBy s.describe depth base) := by
  induction depth generalizing base with
  | zero => exact .answer
  | succ depth ih =>
    refine (gives_subclassesBy base).bind fun subs _ => ?_
    refine (Request.Gives.mapM fun sub _ => ?_).bind fun parts _ => .answer
    exact (ih sub).bind fun below _ => .answer

theorem gives_descendants (base : TypeModel) :
    Request.Gives s (Catalog.descendants base) (s.descendants base) :=
  .declarations (gives_descendantsBy s.size base)

end Catalog

end Orm
