import Orm.Proofs.Plan.Derivation
import Orm.Proofs.Schema.Bounds

/-!
# `Proofs.Plan.Cycles` — the walk ends, and only cycles stop it

Types refer to each other over relations and value objects, also in circles. The walk keeps the names
of the types on its way and does not enter a type that is among them. So it goes no deeper than the
schema is large, whatever the depth it may go to and whatever stands at its bottom; where it succeeds,
no path of types from the root comes back to a type, and where it fails with a cycle, some path does.

A path is told from the schema alone: `Stop.Leads` says which types a type leads to. That types are only
compared along one path, and not between branches, is what `build_returns` adds to `build_never_returns`.

## Contents
- **Stops.** `Stop`, `Stop.fields`, `stopOf?`, `Stop.Leads`, `Stop.Path`.
- **Depth.** `walkFieldOver`, `Plan.buildBy`, `walkFieldOver_eq`, `buildBy_walkFieldOver`.
- **Success.** `Stop.Avoids`, `Derives.avoids`, `build_never_returns`.
- **Failure.** `Harmless`, `Blames`, `blames_walkFieldOver`, `build_returns`.
- **Main result.** `BoundsSuffice`, `build_stops_at_cycles`.
-/

namespace Orm.Plan

open Sql Schema

/-! ## Stops -/

/-- A type on the way through a plan: as an entity with all its levels, or as a value object. -/
inductive Stop where
  | entity (type : TypeModel)
  | valueObject (type : TypeModel)

namespace Stop

/-- The name of the type. -/
def name : Stop → String
  | .entity t => t.name
  | .valueObject t => t.name

/-- The fields that are walked at a stop: those of all levels of an entity, or the own and inherited
fields of a value object. -/
def fields (s : Schema) : Stop → List FieldModel
  | .entity t =>
    match s.layout t with
    | .ok layout => layout.levels.flatMap (·.1.fields)
    | .error _ => []
  | .valueObject t => t.allFields

end Stop

/-- The stop that a field leads to, if it is a relation or a value object of a described type. -/
def stopOf? (s : Schema) (f : FieldModel) : Option Stop :=
  match f.cls with
  | .relation name => (s.describe name).toOption.map .entity
  | .embedded name => (s.describe name).toOption.map .valueObject
  | _ => none

/-- A stop leads to another over one of its fields that is not transient. -/
def Stop.Leads (s : Schema) (a b : Stop) : Prop :=
  ∃ f ∈ a.fields s, f.transient = false ∧ stopOf? s f = some b

/-- From a stop, each stop of a path is one that the stop before it leads to. -/
def Stop.Path (s : Schema) (start : Stop) (path : List Stop) : Prop :=
  List.IsChain (Stop.Leads s) (start :: path)

section

variable {s : Schema} {f : FieldModel} {name : String} {target : TypeModel} {stop : Stop}

theorem stopOf?_relation (cls : f.cls = .relation name) (describes : s.describe name = .ok target) :
    stopOf? s f = some (.entity target) := by
  unfold stopOf?
  rw [cls]
  dsimp only
  rw [describes]
  rfl

theorem stopOf?_embedded (cls : f.cls = .embedded name) (describes : s.describe name = .ok target) :
    stopOf? s f = some (.valueObject target) := by
  unfold stopOf?
  rw [cls]
  dsimp only
  rw [describes]
  rfl

/-- A single value leads nowhere. -/
theorem stopOf?_single (single : f.isSingle = true) : stopOf? s f = none := by
  unfold stopOf?
  unfold FieldModel.isSingle FieldModel.isRelation FieldModel.isEmbedded at single
  split
  next cls => simp [cls] at single
  next cls => simp [cls] at single
  next => rfl

/-- The fields of an entity are those of its levels, wherever these are placed. -/
theorem mem_fields_entity {layout : Layout} (lays : s.layout target = .ok layout) (path : String) :
    f ∈ (Stop.entity target).fields s ↔ ∃ p ∈ placedLevels path layout, f ∈ p.level.fields := by
  have levels : layout.levels.map (·.1) = (placedLevels path layout).map (·.level) := by
    unfold Layout.levels placedLevels
    simp only [List.map_append, List.map_cons, List.map_map]
    rfl
  have fields : (Stop.entity target).fields s =
      (placedLevels path layout).flatMap (·.level.fields) := by
    unfold Stop.fields
    dsimp only
    rw [lays]
    have both := congrArg (List.flatMap Level.fields) levels
    rw [List.flatMap_map, List.flatMap_map] at both
    exact both
  rw [fields, List.mem_flatMap]

/-! ## Depth -/

/-- A field, down to a depth; whatever else is done to the fields below it. -/
def walkFieldOver (s : Schema) (bottom : Scope → FieldModel → Walk Members) :
    Nat → Scope → FieldModel → Walk Members
  | 0 => bottom
  | depth + 1 => walkFieldBy s (some (walkFieldOver s bottom depth))

/-- The plan for a type, by some way to walk fields. -/
def buildBy (walk : Scope → FieldModel → Walk Members) (s : Schema) (name : String) :
    Except Error Plan := do
  let declared ← s.describe name
  let layout ← s.layout declared
  let (root, draft) ← (walkEntity walk layout.main.table.name "" [] layout none).run {}
  return planOf root draft

/-- The walk of a plan is one over a bottom at which no type is entered. -/
theorem walkField_eq (s : Schema) (depth : Nat) :
    walkField s depth = walkFieldOver s (walkFieldBy s none) depth := by
  induction depth with
  | zero => rfl
  | succ depth ih => exact congrArg (fun walk => walkFieldBy s (some walk)) ih

theorem build_eq_buildBy (s : Schema) (name : String) :
    Plan.build s name = buildBy (walkFieldOver s (walkFieldBy s none) s.size) s name := by
  rw [← walkField_eq]
  rfl

variable {α β : Type} {walk walk' : Scope → FieldModel → Walk Members} {walking : List String}
  {scope : Scope} {layout : Layout}

/-- Two ways to walk fields do the same on the way along some types. -/
def AgreeOn (walking : List String) (walk walk' : Scope → FieldModel → Walk Members) : Prop :=
  ∀ scope, scope.walking = walking → walk scope = walk' scope

theorem bind_congr_of_ok {x : Except Error α} {k k' : α → Except Error β}
    (h : ∀ a, x = .ok a → k a = k' a) : (x >>= k) = (x >>= k') := by
  cases x with
  | error e => rfl
  | ok a => exact h a rfl

/-- After a computation without a draft, only its result counts. -/
theorem lift_bind_congr {x : Except Error α} {k k' : α → Walk β} (h : ∀ a, x = .ok a → k a = k' a) :
    (liftM x >>= k) = (liftM x >>= k') := by
  cases x with
  | error e => rfl
  | ok a =>
    funext d
    exact congrFun (h a rfl) d

theorem walkLevels_congr (agree : AgreeOn walking walk walk') (path relationBase : String)
    (ids : List FieldModel) (ps : List PlacedLevel) :
    walkLevels walk (levelScope path relationBase ids walking) ids ps =
      walkLevels walk' (levelScope path relationBase ids walking) ids ps := by
  induction ps with
  | nil => rfl
  | cons p rest ih =>
    have here : walk (levelScope path relationBase ids walking p) =
        walk' (levelScope path relationBase ids walking p) := agree _ rfl
    unfold walkLevels
    rw [ih, here]

theorem walkEntity_congr (agree : AgreeOn (walking ++ [layout.declared.name]) walk walk')
    (path relationBase : String) (attachment : Option Attachment) :
    walkEntity walk path relationBase walking layout attachment =
      walkEntity walk' path relationBase walking layout attachment := by
  have levels := walkLevels_congr agree path relationBase layout.declared.idFields
    (placedLevels path layout)
  unfold walkEntity
  dsimp only
  rw [levels]

/-- Below a relation, only the walk on the way along its target counts. -/
theorem walkRelation_congr (described : s.Describes target)
    (agree : AgreeOn (scope.walking ++ [target.name]) walk walk') (f : FieldModel) :
    walkRelation s walk scope f target = walkRelation s walk' scope f target := by
  unfold walkRelation
  refine lift_bind_congr fun layout lays => ?_
  have declared : layout.declared = target := (sound_of_layout described lays).2
  rw [← declared] at agree
  simp only [walkEntity_congr agree]

theorem walkEmbedded_congr (agree : AgreeOn (scope.walking ++ [target.name]) walk walk')
    (f : FieldModel) : walkEmbedded walk scope f target = walkEmbedded walk' scope f target := by
  have inside : walk (scope.inside f target) = walk' (scope.inside f target) := agree _ rfl
  unfold walkEmbedded
  rw [inside]

/-- What follows the entry of a type only counts for described types that are not on the way. -/
theorem enter_bind_congr {k k' : TypeModel → Walk β}
    (h : ∀ target, s.describe name = .ok target → target.name ∉ scope.walking → k target = k' target) :
    (enter s scope f name >>= k) = (enter s scope f name >>= k') := by
  unfold enter
  rw [bind_assoc, bind_assoc]
  refine lift_bind_congr fun target describes => ?_
  by_cases seen : scope.walking.contains target.name = true
  · rw [if_pos seen]
    rfl
  · have fresh : target.name ∉ scope.walking := fun mem => seen (List.contains_iff_mem.mpr mem)
    rw [if_neg seen]
    exact h target describes fresh

theorem walkFieldBy_congr
    (agree : ∀ target, s.Describes target → target.name ∉ scope.walking →
      AgreeOn (scope.walking ++ [target.name]) walk walk') (f : FieldModel) :
    walkFieldBy s (some walk) scope f = walkFieldBy s (some walk') scope f := by
  unfold walkFieldBy
  split
  next => rfl
  next => rfl
  next name cls =>
    exact enter_bind_congr fun target describes fresh =>
      walkEmbedded_congr (agree target ⟨name, describes⟩ fresh) f
  next name cls =>
    exact enter_bind_congr fun target describes fresh =>
      walkRelation_congr ⟨name, describes⟩ (agree target ⟨name, describes⟩ fresh) f

/-- **The walk does not reach its bottom.** On the way along different types, a depth that makes up for
what is left of the schema is enough. -/
theorem walkFieldOver_eq {bottom bottom' : Scope → FieldModel → Walk Members} {depth depth' : Nat}
    (distinct : walking.Nodup) (declared : walking ⊆ s.names)
    (enough : s.size < depth + walking.length) (enough' : s.size < depth' + walking.length) :
    AgreeOn walking (walkFieldOver s bottom depth) (walkFieldOver s bottom' depth') := by
  have short := length_le_size distinct declared
  induction depth generalizing depth' walking with
  | zero => omega
  | succ depth ih =>
    cases depth' with
    | zero => omega
    | succ depth' =>
      rintro scope rfl
      funext f
      refine walkFieldBy_congr (fun target described fresh => ?_) f
      have distinct' : (scope.walking ++ [target.name]).Nodup := nodup_concat distinct fresh
      have declared' : scope.walking ++ [target.name] ⊆ s.names := List.append_subset.mpr
        ⟨declared, List.cons_subset.mpr ⟨mem_names_of_describe described.self, List.nil_subset _⟩⟩
      have longer : (scope.walking ++ [target.name]).length = scope.walking.length + 1 :=
        List.length_append
      exact ih distinct' declared' (by omega) (by omega) (length_le_size distinct' declared')

/-- **A plan does not depend on the depth of its walk**, nor on what would be done at the bottom. -/
theorem buildBy_walkFieldOver (bottom : Scope → FieldModel → Walk Members) {depth : Nat}
    (enough : s.size ≤ depth) (name : String) :
    buildBy (walkFieldOver s bottom depth) s name = Plan.build s name := by
  rw [build_eq_buildBy]
  unfold buildBy
  refine bind_congr_of_ok fun declared describes => bind_congr_of_ok fun layout lays => ?_
  have described : s.Describes declared := ⟨name, describes⟩
  have same : layout.declared = declared := (sound_of_layout described lays).2
  have known : [declared.name] ⊆ s.names :=
    List.cons_subset.mpr ⟨mem_names_of_describe described.self, List.nil_subset _⟩
  have agree : AgreeOn ([] ++ [layout.declared.name]) (walkFieldOver s bottom depth)
      (walkFieldOver s (walkFieldBy s none) s.size) :=
    walkFieldOver_eq (List.nodup_singleton _) (same ▸ known) (Nat.lt_succ_of_le enough)
      (Nat.lt_succ_self _)
  rw [walkEntity_congr agree]

/-! ## Success -/

/-- No path from a stop comes to one of some types, or to one type twice. -/
def Stop.Avoids (s : Schema) (walking : List String) (stop : Stop) : Prop :=
  ∀ path, stop.Path s path → (walking ++ (stop :: path).map Stop.name).Nodup

/-- A stop avoids what those that it leads to avoid together with it. -/
theorem Stop.avoids_of_next (distinct : walking.Nodup) (fresh : stop.name ∉ walking)
    (next : ∀ f ∈ stop.fields s, f.transient = false → ∀ stop', stopOf? s f = some stop' →
      stop'.Avoids s (walking ++ [stop.name])) : stop.Avoids s walking := by
  intro path chain
  cases path with
  | nil => exact nodup_concat distinct fresh
  | cons stop' path =>
    obtain ⟨⟨f, hf, stored, leads⟩, later⟩ := List.isChain_cons_cons.mp chain
    have avoids := next f hf stored stop' leads path later
    rw [List.append_assoc] at avoids
    exact avoids

/-- The fields that a part of the walk works on lead to stops that avoid the types on the way. -/
def Task.AvoidsWay (s : Schema) : Task → Prop
  | .field scope f => scope.walking.Nodup →
    ∀ stop, stopOf? s f = some stop → stop.Avoids s scope.walking
  | .fields scope fs => scope.walking.Nodup → ∀ f ∈ fs, f.transient = false →
    ∀ stop, stopOf? s f = some stop → stop.Avoids s scope.walking
  | .levels place ps => place.walking.Nodup → ∀ p ∈ ps, ∀ f ∈ p.level.fields, f.transient = false →
    ∀ stop, stopOf? s f = some stop → stop.Avoids s place.walking
  | .entity path _ walking layout _ => (walking ++ [layout.declared.name]).Nodup →
    ∀ p ∈ placedLevels path layout, ∀ f ∈ p.level.fields, f.transient = false →
      ∀ stop, stopOf? s f = some stop → stop.Avoids s (walking ++ [layout.declared.name])

/-- **A part of the walk that succeeds has met no type that it was already on the way along.** -/
theorem Derives.avoids {t : Task} {d d' : Draft} {m : Members} {asked : List SelectItem}
    (h : Derives s t d m asked d') : t.AvoidsWay s := by
  have alone : ∀ {scope : Scope} {f : FieldModel}, f.isSingle = true →
      (Task.field scope f).AvoidsWay s := by
    intro scope f single _ stop leads
    cases (stopOf?_single single).symm.trans leads
  induction h with
  | key single => exact alone single
  | column single => exact alone single
  | computed single => exact alone single
  | @embedded scope f d d' name target inner asked cls describes fresh walk ih =>
    intro distinct stop leads
    cases (stopOf?_embedded cls describes).symm.trans leads
    exact Stop.avoids_of_next distinct fresh (ih (nodup_concat distinct fresh))
  | @relation scope f d d₁ d' name target layout condition inner asked cls describes fresh lays linked
      joined walk ih =>
    intro distinct stop leads
    cases (stopOf?_relation cls describes).symm.trans leads
    have declared : layout.declared = target := (sound_of_layout ⟨name, describes⟩ lays).2
    refine Stop.avoids_of_next distinct fresh fun g hg stored stop' leads' => ?_
    obtain ⟨p, hp, own⟩ := (mem_fields_entity lays (scope.childPath f)).mp hg
    have below := ih (declared.symm ▸ nodup_concat distinct fresh) p hp g own stored stop' leads'
    rw [declared] at below
    exact below
  | done => exact fun _ _ hf => absurd hf List.not_mem_nil
  | @skip scope f fs d d' m asked transient walk ih =>
    intro distinct g hg stored
    rcases List.mem_cons.mp hg with rfl | later
    · cases transient.symm.trans stored
    · exact ih distinct g later stored
  | next stored first rest first_ih rest_ih =>
    intro distinct g hg stored'
    rcases List.mem_cons.mp hg with rfl | later
    · exact first_ih distinct
    · exact rest_ih distinct g later stored'
  | bottom => exact fun _ _ hp => absurd hp List.not_mem_nil
  | level first rest first_ih rest_ih =>
    intro distinct p hp
    rcases List.mem_cons.mp hp with rfl | later
    · exact first_ih distinct
    · exact rest_ih distinct p later
  | entity keyed room walk late ih => exact ih

/-- **Where a plan is built, no path of types comes back to a type.** -/
theorem build_never_returns {p : Plan} (built : Plan.build s name = .ok p) :
    ∃ root, s.describe name = .ok root ∧
      ∀ path, (Stop.entity root).Path s path → ((Stop.entity root :: path).map Stop.name).Nodup := by
  obtain ⟨asked, ⟨derivation⟩⟩ := derivation_of_build built
  obtain ⟨declared, layout, members, draft, described, laid, derived, -⟩ := derivation
  have same : layout.declared = declared := (sound_of_layout ⟨name, described⟩ laid).2
  refine ⟨declared, described, fun path chain => ?_⟩
  have avoids : (Stop.entity declared).Avoids s [] := by
    refine Stop.avoids_of_next List.nodup_nil List.not_mem_nil fun f hf stored stop leads => ?_
    obtain ⟨p, hp, own⟩ := (mem_fields_entity laid layout.main.table.name).mp hf
    have below := derived.avoids (List.nodup_singleton _) p hp f own stored stop leads
    rw [same] at below
    exact below
  exact avoids path chain

/-! ## Failure -/

/-- A computation does not fail with a cycle. -/
def Harmless (x : Except Error α) : Prop :=
  ∀ e, x = .error e → e.kind ≠ .cyclicRelation

theorem harmless_ok (a : α) : Harmless (.ok a : Except Error α) := nofun

theorem harmless_error {e : Error} (h : e.kind ≠ .cyclicRelation) :
    Harmless (.error e : Except Error α) := by
  intro e' same
  cases same
  exact h

theorem Harmless.bind {x : Except Error α} {f : α → Except Error β} (hx : Harmless x)
    (hf : ∀ a, Harmless (f a)) : Harmless (x >>= f) := by
  intro e h
  cases x with
  | error e' =>
    cases h
    exact hx e rfl
  | ok a => exact hf a e h

theorem Harmless.map {x : Except Error α} (hx : Harmless x) (f : α → β) : Harmless (f <$> x) := by
  rw [map_eq_pure_bind]
  exact hx.bind fun a => harmless_ok _

theorem harmless_mapM {f : α → Except Error β} {l : List α} (h : ∀ a, Harmless (f a)) :
    Harmless (l.mapM f) := by
  induction l with
  | nil => exact harmless_ok _
  | cons a rest ih =>
    rw [List.mapM_cons]
    exact (h a).bind fun _ => ih.bind fun _ => harmless_ok _

/-- **Describing a type does not fail with a cycle of relations**, whatever else it fails with. -/
theorem harmless_describe (s : Schema) (name : String) : Harmless (s.describe name) := by
  have field : ∀ owner decl, Harmless (describeField s owner decl) := by
    intro owner decl
    refine Harmless.bind ?_ fun cls => harmless_ok _
    unfold fieldClass
    split
    next => exact harmless_ok _
    next target =>
      unfold classify
      split
      next => exact harmless_error (by rintro ⟨⟩)
      next =>
        split
        · exact harmless_ok _
        split
        · exact harmless_ok _
        split
        · exact harmless_ok _
        · exact harmless_error (by rintro ⟨⟩)
  have layer : ∀ decl, Harmless (describeLayer s decl) := fun decl =>
    (harmless_mapM (field decl.name)).bind fun _ => harmless_ok _
  have along : ∀ fuel chain name, Harmless (describeFrom s fuel chain name) := by
    intro fuel
    induction fuel with
    | zero => exact fun chain name => harmless_error (by rintro ⟨⟩)
    | succ fuel ih =>
      intro chain name
      unfold describeFrom
      split
      · exact harmless_error (by rintro ⟨⟩)
      split
      · exact harmless_error (by rintro ⟨⟩)
      split
      · exact harmless_error (by rintro ⟨⟩)
      split
      · exact (harmless_ok _).bind fun _ => (layer _).bind fun _ => harmless_ok _
      · exact ((ih _ _).map some).bind fun _ => (layer _).bind fun _ => harmless_ok _
  exact along _ _ _

theorem harmless_layout (s : Schema) (t : TypeModel) : Harmless (s.layout t) := by
  have below : ∀ depth base, Harmless (descendantsBy (describe s) depth base) := by
    intro depth
    induction depth with
    | zero => exact fun base => harmless_ok _
    | succ depth ih =>
      intro base
      refine Harmless.bind (harmless_mapM fun name => ?_) fun subs =>
        (harmless_mapM fun sub => (ih sub).bind fun _ => harmless_ok _).bind fun _ => harmless_ok _
      refine (harmless_describe s name).bind fun sub => ?_
      dsimp only
      split
      · exact harmless_ok _
      · exact harmless_error nofun
  unfold layout
  dsimp only
  split
  · exact harmless_error nofun
  split
  · unfold discriminatedLayout
    dsimp only
    split
    · refine (below _ _).bind fun group => ?_
      split
      · exact harmless_error nofun
      · exact (below _ _).bind fun _ => harmless_ok _
    · exact (below _ _).bind fun _ => harmless_ok _
  · refine (below _ _).bind fun subs => (harmless_mapM fun sub => ?_).bind fun _ => harmless_ok _
    unfold subclassLevel
    split
    · exact harmless_ok _
    · exact harmless_error nofun

theorem harmless_rebase (heads : List (String × String)) (text : String) :
    Harmless (rebase heads text) := by
  have lexing : Harmless (lexemes text.toList) := by
    unfold lexemes
    dsimp only
    split
    · exact harmless_ok _
    · exact harmless_error nofun
  have substituting : ∀ ls, Harmless (substituteLexemes
      (fun name => .ok ("\x7b" ++ rebaseName heads name ++ "\x7d")) ls) := by
    intro ls
    induction ls with
    | nil => exact harmless_ok _
    | cons l rest ih =>
      unfold substituteLexemes
      split
      · exact (harmless_ok _).bind fun _ => ih.bind fun _ => harmless_ok _
      · exact (harmless_ok _).bind fun _ => ih.bind fun _ => harmless_ok _
  exact lexing.bind fun ls => (substituting ls).bind fun _ => harmless_ok _

theorem harmless_singleKey (type : String) (ids : List FieldModel) : Harmless (singleKey type ids) := by
  unfold singleKey
  split
  · exact harmless_ok _
  · exact harmless_error nofun

theorem harmless_relationCondition (scope : Scope) (f : FieldModel) (target : TypeModel)
    (targetTable childPath : String) :
    Harmless (relationCondition scope f target targetTable childPath) := by
  unfold relationCondition
  split
  · exact (harmless_rebase _ _).map _
  · unfold inferredCondition
    split
    · exact (harmless_singleKey _ _).bind fun _ => harmless_ok _
    · exact (harmless_singleKey _ _).bind fun _ => harmless_ok _
    · exact (harmless_singleKey _ _).bind fun _ => harmless_ok _

theorem harmless_linkAlias (scope : Scope) (f : FieldModel) (link : LinkTable) (childPath : String) :
    Harmless (linkAlias scope f link childPath) :=
  (harmless_singleKey _ _).bind fun _ => harmless_ok _

/-- Where a step of the walk fails with a cycle, something is the case. -/
def Blames (x : Walk α) (why : Prop) : Prop :=
  ∀ d e, x.run d = .error e → e.kind = .cyclicRelation → why

section

variable {why : Prop}

theorem blames_pure (a : α) : Blames (pure a) why := nofun

theorem blames_modify (g : Draft → Draft) : Blames (modify g) why := nofun

theorem blames_throw {e : Error} (h : e.kind = .cyclicRelation → why) :
    Blames (throw e : Walk α) why := by
  intro d e' same kind
  cases same
  exact h kind

/-- The second of two steps only counts after the first has succeeded. -/
theorem Blames.bind_of_yields {x : Walk α} {k : α → Walk β} (hx : Blames x why)
    (hk : ∀ a, (∃ d d', Yields x d a d') → Blames (k a) why) : Blames (x >>= k) why := by
  intro d e h kind
  rw [StateT.run_bind] at h
  cases ran : x.run d with
  | error e' =>
    rw [ran] at h
    cases h
    exact hx d e ran kind
  | ok r =>
    rw [ran] at h
    exact hk r.1 ⟨d, r.2, ran⟩ r.2 e h kind

theorem Blames.bind {x : Walk α} {k : α → Walk β} (hx : Blames x why)
    (hk : ∀ a, Blames (k a) why) : Blames (x >>= k) why :=
  hx.bind_of_yields fun a _ => hk a

theorem blames_lift {x : Except Error α} (hx : Harmless x) : Blames (liftM x : Walk α) why := by
  intro d e h kind
  cases x with
  | error e' =>
    cases h
    exact (hx e rfl kind).elim
  | ok a => cases h

/-- A computation without a draft that does no harm passes its result on. -/
theorem blames_lift_bind {x : Except Error α} {k : α → Walk β} (hx : Harmless x)
    (hk : ∀ a, x = .ok a → Blames (k a) why) : Blames (liftM x >>= k) why := by
  refine (blames_lift hx).bind_of_yields ?_
  rintro a ⟨d, d', ran⟩
  exact hk a (yields_lift.mp ran).1

theorem blames_guard {c : Prop} [Decidable c] {e : Error} {x : Walk α}
    (harmless : e.kind ≠ .cyclicRelation) (hx : Blames x why) :
    Blames (if c then throw e else x) why := by
  split
  · exact blames_throw fun kind => absurd kind harmless
  · exact hx

theorem blames_addAlias (a : Alias) : Blames (addAlias a) why := by
  have get : Blames (get : Walk Draft) why := nofun
  have set : ∀ d : Draft, Blames (set d : Walk Unit) why := fun _ => nofun
  exact get.bind fun d => blames_guard nofun (set _)

theorem blames_addAliases (as : List Alias) : Blames (addAliases as) why := by
  induction as with
  | nil => exact blames_pure ()
  | cons a rest ih => exact (blames_addAlias a).bind fun _ => ih

theorem blames_addSelect (e : Expression) (label : String) : Blames (addSelect e label) why :=
  blames_modify _

theorem blames_anchored (path text : String) : Blames (anchored path text) why :=
  blames_lift (harmless_rebase _ _)

theorem blames_mapM_anchored (path : String) (texts : List String) :
    Blames (texts.mapM (anchored path)) why := by
  induction texts with
  | nil => exact blames_pure []
  | cons text rest ih =>
    rw [List.mapM_cons]
    exact (blames_anchored path text).bind fun _ => ih.bind fun _ => blames_pure _

theorem blames_addLate (path : String) (layers : List TypeLayer) :
    Blames (addLate path layers) why := by
  induction layers with
  | nil => exact blames_pure ()
  | cons t rest ih =>
    exact (blames_mapM_anchored path t.joins).bind fun _ =>
      (blames_mapM_anchored path t.groupBy).bind fun _ => (blames_modify _).bind fun _ => ih

theorem blames_walkKeys (path : String) (ids : List FieldModel) : Blames (walkKeys path ids) why := by
  induction ids with
  | nil => exact blames_pure ()
  | cons id rest ih =>
    exact (blames_addSelect _ _).bind fun _ => (blames_modify _).bind fun _ => ih

theorem blames_walkDiscriminator (path : String) (layout : Layout) :
    Blames (walkDiscriminator path layout) why := by
  unfold walkDiscriminator
  split
  · exact blames_pure none
  · exact (blames_addSelect _ _).bind fun _ => blames_pure _

/-- A single value fails with no cycle. -/
theorem blames_walkColumn (scope : Scope) (f : FieldModel) : Blames (walkColumn scope f) why := by
  have expression : Blames (columnExpression scope f) why := by
    unfold columnExpression
    split
    · rw [map_eq_pure_bind]
      exact (blames_anchored _ _).bind fun _ => blames_pure _
    · exact (blames_modify _).bind fun _ => blames_pure _
  unfold walkColumn
  dsimp only
  split
  · exact (blames_modify _).bind fun _ => blames_pure _
  · exact expression.bind fun _ => (blames_modify _).bind fun _ =>
      (blames_addSelect _ _).bind fun _ => blames_pure _

theorem blames_walkFields {walk : FieldModel → Walk Members} {fs : List FieldModel}
    (h : ∀ f ∈ fs, f.transient = false → Blames (walk f) why) : Blames (walkFields walk fs) why := by
  induction fs with
  | nil => exact blames_pure Members.nil
  | cons f rest ih =>
    have later := ih fun g hg => h g (List.mem_cons_of_mem f hg)
    unfold walkFields
    split
    next => exact later
    next stored =>
      have here := h f List.mem_cons_self (Bool.eq_false_iff.mpr stored)
      exact here.bind fun _ => later.bind fun _ => blames_pure _

theorem blames_walkLevels {scopeOf : PlacedLevel → Scope} {ids : List FieldModel}
    {ps : List PlacedLevel}
    (h : ∀ p ∈ ps, ∀ f ∈ p.level.fields, f.transient = false → Blames (walk (scopeOf p) f) why) :
    Blames (walkLevels walk scopeOf ids ps) why := by
  induction ps with
  | nil => exact blames_pure Members.nil
  | cons p rest ih =>
    have later := ih fun q hq => h q (List.mem_cons_of_mem p hq)
    have here := blames_walkFields (h p List.mem_cons_self)
    exact (blames_walkKeys _ _).bind fun _ => here.bind fun _ => later.bind fun _ => blames_pure _

/-- What follows the limit on the rows of the root. -/
theorem blames_limiting {path : String} {attachment : Option Attachment} {rest : Walk α}
    (h : Blames rest why) :
    Blames (if attachment.isNone = true then
      setRestriction (entityRestriction path layout) >>= fun _ => rest else rest) why := by
  split
  · exact (blames_modify _).bind fun _ => h
  · exact h

theorem blames_walkEntity {path relationBase : String} {attachment : Option Attachment}
    (h : ∀ p ∈ placedLevels path layout, ∀ f ∈ p.level.fields, f.transient = false →
      ∀ scope, scope.walking = walking ++ [layout.declared.name] → Blames (walk scope f) why) :
    Blames (walkEntity walk path relationBase walking layout attachment) why := by
  have next : Blames nextEntity why := nofun
  have levels : Blames (walkLevels walk (levelScope path relationBase layout.declared.idFields
      (walking ++ [layout.declared.name])) layout.declared.idFields (placedLevels path layout)) why :=
    blames_walkLevels fun p hp f hf stored => h p hp f hf stored _ rfl
  unfold walkEntity
  refine blames_guard nofun (blames_limiting ?_)
  exact (blames_addAlias _).bind fun _ => (blames_addAliases _).bind fun _ =>
    (blames_walkDiscriminator _ _).bind fun _ => next.bind fun _ => levels.bind fun _ =>
      (blames_addLate _ _).bind fun _ => blames_pure _

/-- A relation fails with a cycle only where its target does. -/
theorem blames_walkRelation (h : ∀ layout, s.layout target = .ok layout →
      ∀ path relationBase attachment,
        Blames (walkEntity walk path relationBase scope.walking layout attachment) why)
    (f : FieldModel) : Blames (walkRelation s walk scope f target) why := by
  unfold walkRelation
  refine blames_lift_bind (harmless_layout s target) fun layout lays => ?_
  have later : ∀ kind parent, Blames (do
      let condition ← liftM (relationCondition scope f target layout.main.table.name
        (joinPath scope.relationBase f.name))
      let child ← walkEntity walk (joinPath scope.relationBase f.name)
        (joinPath scope.relationBase f.name) scope.walking layout
        (some ⟨f, kind, ⟨parent, .left, condition, none⟩⟩)
      return .relation f kind child.head child.members .nil : Walk Members) why := fun kind parent =>
    (blames_lift (harmless_relationCondition _ _ _ _ _)).bind fun condition =>
      (h layout lays _ _ _).bind fun child => blames_pure _
  dsimp only
  split
  · exact (blames_lift (harmless_linkAlias _ _ _ _)).bind fun a =>
      (blames_addAlias a).bind fun _ => later _ _
  · exact later _ _

theorem blames_walkEmbedded {f : FieldModel}
    (h : ∀ g ∈ target.allFields, g.transient = false →
      Blames (walk (scope.inside f target) g) why) :
    Blames (walkEmbedded walk scope f target) why :=
  (blames_walkFields h).bind fun _ => blames_pure _

/-- Entering a type fails with a cycle only where the type is on the way. -/
theorem blames_enter
    (repeated : ∀ target, s.describe name = .ok target → target.name ∈ scope.walking → why) :
    Blames (enter s scope f name) why := by
  unfold enter
  refine blames_lift_bind (harmless_describe s name) fun target describes => ?_
  split
  next seen => exact blames_throw fun _ => repeated target describes (List.contains_iff_mem.mp seen)
  next => exact blames_pure target

/-- What follows the entry of a type. -/
theorem blames_enter_bind {k : TypeModel → Walk β}
    (repeated : ∀ target, s.describe name = .ok target → target.name ∈ scope.walking → why)
    (h : ∀ target, s.describe name = .ok target → Blames (k target) why) :
    Blames (enter s scope f name >>= k) why := by
  refine (blames_enter repeated).bind_of_yields ?_
  rintro target ⟨d, d', entered⟩
  exact h target (yields_enter.mp entered).1

end

/-- A stop that avoids some types leads to stops that avoid them and itself. -/
theorem Stop.Avoids.next {stop' : Stop} (avoids : stop.Avoids s walking)
    (leads : stop.Leads s stop') : stop'.Avoids s (walking ++ [stop.name]) := by
  intro path chain
  have longer := avoids (stop' :: path) (List.isChain_cons_cons.mpr ⟨leads, chain⟩)
  rw [List.append_assoc]
  exact longer

theorem Stop.Avoids.fresh (avoids : stop.Avoids s walking) : stop.name ∉ walking := by
  have alone := List.nodup_append.mp (avoids [] (.singleton stop))
  exact fun mem => alone.2.2 stop.name mem stop.name List.mem_cons_self rfl

/-- **A field fails with a cycle only if it leads to a stop from which some path comes back** to a type
on the way or to itself. -/
theorem blames_walkFieldOver {bottom : Scope → FieldModel → Walk Members}
    (harmless : ∀ scope f, Blames (bottom scope f) False) (depth : Nat) :
    ∀ scope f, Blames (walkFieldOver s bottom depth scope f)
      (∃ stop, stopOf? s f = some stop ∧ ¬ stop.Avoids s scope.walking) := by
  induction depth with
  | zero => exact fun scope f d e h kind => (harmless scope f d e h kind).elim
  | succ depth ih =>
    intro scope f
    -- a path that comes back from below a stop comes back from the stop
    have above : ∀ {stop : Stop} {g : FieldModel} {scope' : Scope}, stopOf? s f = some stop →
        g ∈ stop.fields s → g.transient = false → scope'.walking = scope.walking ++ [stop.name] →
        Blames (walkFieldOver s bottom depth scope' g)
          (∃ stop, stopOf? s f = some stop ∧ ¬ stop.Avoids s scope.walking) := by
      intro stop g scope' leads hg stored way d e h kind
      obtain ⟨stop', leads', returns⟩ := ih scope' g d e h kind
      rw [way] at returns
      exact ⟨stop, leads, fun avoids => returns (avoids.next ⟨g, hg, stored, leads'⟩)⟩
    show Blames (walkFieldBy s (some (walkFieldOver s bottom depth)) scope f) _
    unfold walkFieldBy
    split
    next => exact blames_walkColumn scope f
    next => exact blames_walkColumn scope f
    next name cls =>
      refine blames_enter_bind (fun target describes seen => ?_) fun target describes => ?_
      · exact ⟨_, stopOf?_embedded cls describes, fun avoids => avoids.fresh seen⟩
      · exact blames_walkEmbedded fun g hg stored =>
          above (stopOf?_embedded cls describes) hg stored rfl
    next name cls =>
      refine blames_enter_bind (fun target describes seen => ?_) fun target describes => ?_
      · exact ⟨_, stopOf?_relation cls describes, fun avoids => avoids.fresh seen⟩
      · refine blames_walkRelation (fun layout lays path relationBase attachment => ?_) f
        have declared : layout.declared = target := (sound_of_layout ⟨name, describes⟩ lays).2
        refine blames_walkEntity fun p hp g hg stored scope' way => ?_
        rw [declared] at way
        have own := (mem_fields_entity lays path).mpr ⟨p, hp, hg⟩
        exact above (stopOf?_relation cls describes) own stored way

/-- **Where no plan is built because of a cycle, some path of types comes back to a type.** -/
theorem build_returns {e : Error} (failed : Plan.build s name = .error e)
    (kind : e.kind = .cyclicRelation) :
    ∃ root, s.describe name = .ok root ∧
      ∃ path, (Stop.entity root).Path s path ∧ ¬ ((Stop.entity root :: path).map Stop.name).Nodup := by
  -- the bottom of the walk fails with cycles of its own, so another one is put in its place
  let bottom : Scope → FieldModel → Walk Members := fun _ _ => throw .namelessType
  have harmless : ∀ scope f, Blames (bottom scope f) False := fun _ _ => blames_throw nofun
  rw [← buildBy_walkFieldOver bottom (Nat.le_refl s.size) name] at failed
  rcases error_bind.mp failed with none_described | ⟨declared, describes, failed⟩
  · exact (harmless_describe s name e none_described kind).elim
  rcases error_bind.mp failed with none_laid | ⟨layout, lays, failed⟩
  · exact (harmless_layout s declared e none_laid kind).elim
  rcases error_bind.mp failed with walk_failed | ⟨_, _, result⟩
  case inr.inr.inr => cases result
  have same : layout.declared = declared := (sound_of_layout ⟨name, describes⟩ lays).2
  have returns : ¬ (Stop.entity declared).Avoids s [] := by
    refine blames_walkEntity (fun p hp f hf stored scope way => ?_) {} e walk_failed kind
    intro d e' h kind'
    obtain ⟨stop, leads, returns⟩ := blames_walkFieldOver harmless s.size scope f d e' h kind'
    rw [way, same] at returns
    have own := (mem_fields_entity lays layout.main.table.name).mpr ⟨p, hp, hf⟩
    exact fun avoids => returns (avoids.next ⟨f, own, stored, leads⟩)
  obtain ⟨path, returning⟩ := Classical.not_forall.mp returns
  obtain ⟨chain, repeated⟩ := Classical.not_imp.mp returning
  exact ⟨declared, describes, path, chain, repeated⟩

end

/-! ## Main result -/

/-- No bound of a recursion behind a plan is ever what ends it: what a type is described as, whether it
has a table, what the descendants of a type and of its ancestors are and what its plan is are the same
for every bound that is not smaller than the schema, and whatever the walk does at its bottom. -/
structure BoundsSuffice (s : Schema) : Prop where
  describe : ∀ fuel, s.size < fuel → ∀ name, describeFrom s fuel [] name = s.describe name
  hasTable : ∀ fuel, s.size ≤ fuel → ∀ decl, hasTable s fuel decl = hasTable s s.size decl
  descendants : ∀ depth, s.size ≤ depth → ∀ t, s.Describes t → ∀ base ∈ t.lineage,
    descendantsBy s.describe depth base = s.descendants base
  build : ∀ depth, s.size ≤ depth → ∀ bottom name,
    buildBy (walkFieldOver s bottom depth) s name = Plan.build s name

theorem boundsSuffice (s : Schema) : BoundsSuffice s where
  describe _ enough := describeFrom_eq_describe enough
  hasTable _ enough := hasTable_eq enough
  descendants _ enough _ described _ mem :=
    descendantsBy_eq (described.of_mem_lineage mem) (Nat.le_add_right_of_le enough)
      (Nat.le_add_right _ _)
  build _ enough bottom := buildBy_walkFieldOver bottom enough

/-- **A plan is built or not in finitely many steps, and only cycles stop the walk as cycles.** No
bound ever ends a recursion behind it. Where the plan is built, no path of types from the root comes
back to a type; where it is not because of a cycle, some path from the root does. -/
theorem build_stops_at_cycles (s : Schema) (name : String) :
    BoundsSuffice s ∧
    (∀ p, Plan.build s name = .ok p → ∃ root, s.describe name = .ok root ∧
      ∀ path, (Stop.entity root).Path s path → ((Stop.entity root :: path).map Stop.name).Nodup) ∧
    (∀ e, Plan.build s name = .error e → e.kind = .cyclicRelation →
      ∃ root, s.describe name = .ok root ∧
        ∃ path, (Stop.entity root).Path s path ∧
          ¬ ((Stop.entity root :: path).map Stop.name).Nodup) :=
  ⟨boundsSuffice s, fun _ built => build_never_returns built, fun _ failed => build_returns failed⟩

/-- A schema with employees and departments that refer to each other, and with flights from airports to
airports. -/
def travel : Schema where
  sources := [⟨.fixed, [
    { name := "Employee", table := some ⟨none, "employee"⟩,
      fields := [
        { name := "id", type := .value .int, attrs := { id := some true } },
        { name := "department", type := .named "Department" }] },
    { name := "Department", table := some ⟨none, "department"⟩,
      fields := [
        { name := "id", type := .value .int, attrs := { id := some true } },
        { name := "staff", type := .named "Employee", cardinality := .list }] },
    { name := "Flight", table := some ⟨none, "flight"⟩,
      fields := [
        { name := "id", type := .value .int, attrs := { id := some true } },
        { name := "origin", type := .named "Airport" },
        { name := "destination", type := .named "Airport" }] },
    { name := "Airport", table := some ⟨none, "airport"⟩,
      fields := [{ name := "id", type := .value .int, attrs := { id := some true } }] }]⟩]

theorem build_stops_at_cycles_travel :
    (∃ e root path, Plan.build travel "Employee" = .error e ∧ e.kind = .cyclicRelation ∧
      travel.describe "Employee" = .ok root ∧ (Stop.entity root).Path travel path ∧
      ¬ ((Stop.entity root :: path).map Stop.name).Nodup) ∧
    (∃ p root, Plan.build travel "Flight" = .ok p ∧
      p.aliases.map (·.path) = ["flight", "origin", "destination"] ∧
      travel.describe "Flight" = .ok root ∧
      ∀ path, (Stop.entity root).Path travel path →
        ((Stop.entity root :: path).map Stop.name).Nodup) := by
  constructor
  · have failed : Plan.build travel "Employee" =
        .error (.cyclicField "Department" "staff" "department" "Employee") := by decide +kernel
    obtain ⟨-, -, returns⟩ := build_stops_at_cycles travel "Employee"
    obtain ⟨root, describes, path, chain, repeated⟩ := returns _ failed rfl
    exact ⟨_, root, path, failed, rfl, describes, chain, repeated⟩
  · obtain ⟨p, built, paths⟩ := ok_of_map (x := Plan.build travel "Flight")
      (f := fun p => p.aliases.map (·.path)) (b := ["flight", "origin", "destination"])
      (by decide +kernel)
    obtain ⟨-, avoids, -⟩ := build_stops_at_cycles travel "Flight"
    obtain ⟨root, describes, distinct⟩ := avoids p built
    exact ⟨p, root, built, paths, describes, distinct⟩

end Orm.Plan
