import Orm.Plan.Cached
import Orm.Proofs.Plan.JoinOrder
import Orm.Proofs.Schema.Requests

/-!
# `Proofs.Plan.Calls` — calls of a catalog

Types are described, subclasses and descendants are listed, and plans are built on one catalog, in any
order, again and again, one after the other or in turns, and whether they succeed or not. Every call is
answered as if it were the only one: as by a fresh catalog, and as by the schema alone.

## Contents
- **Layouts.** `gives_layout`.
- **The walk.** `Mirrors`, with a lemma for each part of the walk up to `mirrors_walkField`.
- **Plans.** `gives_build`.
- **Calls.** `Call`, `Call.request`, `Call.answer`, `gives_request`, `Catalog.after`.
- **Main result.** `Catalog.calls_independent`.
-/

namespace Orm

open Schema Plan Catalog

variable {s : Schema}

/-! ## Layouts -/

theorem gives_discriminatedLayout (declared : TypeModel) (home : Level) (base : TypeModel) :
    Request.Gives s (Catalog.discriminatedLayout declared home base)
      (s.discriminatedLayout declared home base) := by
  unfold Catalog.discriminatedLayout Schema.discriminatedLayout
  dsimp only
  split
  · refine (gives_descendants base).bind fun group _ => ?_
    split
    · exact .answer
    · exact (gives_descendants declared).bind fun below _ => .answer
  · exact (gives_descendants declared).bind fun below _ => .answer

theorem gives_layout (declared : TypeModel) :
    Request.Gives s (Catalog.layout declared) (s.layout declared) := by
  unfold Catalog.layout Schema.layout
  dsimp only
  cases splitLast? (ancestorLevels [] declared.lineage).1 with
  | none => exact .answer
  | some found =>
    obtain ⟨above, last⟩ := found
    dsimp only
    cases declared.lineage.find? (·.discriminator.isSome) with
    | some base => exact gives_discriminatedLayout declared last base
    | none =>
      refine (gives_descendants declared).bind fun below _ => ?_
      exact Request.Gives.bind (r := .answer (below.mapM (subclassLevel declared))) .answer
        fun levels _ => .answer

/-! ## The walk -/

/-- Steps on a catalog give what steps of the walk give, from every draft. -/
def Mirrors {α : Type} (s : Schema) (steps : Steps α) (walk : Walk α) : Prop :=
  ∀ d, (steps d).Gives s (walk d)

namespace Mirrors

variable {α β : Type}

theorem alone (walk : Walk α) : Mirrors s (Catalog.alone walk) walk :=
  fun _ => .answer

theorem pure (a : α) : Mirrors s (Pure.pure a) (Pure.pure a) :=
  fun _ => .answer

theorem throw (e : Error) : Mirrors s (MonadExcept.throw e : Steps α) (MonadExcept.throw e) :=
  fun _ => .answer

theorem bind {steps : Steps α} {walk : Walk α} {f : α → Steps β} {g : α → Walk β}
    (h : Mirrors s steps walk) (later : ∀ a, Mirrors s (f a) (g a)) :
    Mirrors s (steps >>= f) (walk >>= g) :=
  fun d => (h d).bind fun (a, d') _ => later a d'

theorem ite {c : Prop} [Decidable c] {steps steps' : Steps α} {walk walk' : Walk α}
    (yes : Mirrors s steps walk) (no : Mirrors s steps' walk') :
    Mirrors s (if c then steps else steps') (if c then walk else walk') := by
  split
  · exact yes
  · exact no

/-- A request on the way. -/
theorem lift {r : Request α} {x : Except Error α} (h : r.Gives s x) :
    Mirrors s (liftM r : Steps α) (liftM x : Walk α) :=
  fun _ => h.bind fun _ _ => .answer

end Mirrors

variable {walk : Scope → FieldModel → Walk Members} {steps : Scope → FieldModel → Steps Members}

theorem mirrors_enter (scope : Scope) (f : FieldModel) (name : String) :
    Mirrors s (Catalog.enter scope f name) (Plan.enter s scope f name) := by
  refine (Mirrors.lift (gives_describe name)).bind fun target => ?_
  exact .ite (.throw _) (.pure _)

theorem mirrors_walkFields {walk : FieldModel → Walk Members} {steps : FieldModel → Steps Members}
    (h : ∀ f, Mirrors s (steps f) (walk f)) (fs : List FieldModel) :
    Mirrors s (Catalog.walkFields steps fs) (Plan.walkFields walk fs) := by
  induction fs with
  | nil => exact .pure _
  | cons f rest ih =>
    unfold Catalog.walkFields Plan.walkFields
    exact .ite ih ((h f).bind fun here => ih.bind fun later => .pure (here ++ later))

theorem mirrors_walkEmbedded (h : ∀ scope f, Mirrors s (steps scope f) (walk scope f)) (scope : Scope)
    (f : FieldModel) (target : TypeModel) :
    Mirrors s (Catalog.walkEmbedded steps scope f target) (Plan.walkEmbedded walk scope f target) :=
  (mirrors_walkFields (h _) _).bind fun inner =>
    .pure (Members.embedded f target inner .nil)

theorem mirrors_walkLevels (h : ∀ scope f, Mirrors s (steps scope f) (walk scope f))
    (scopeOf : PlacedLevel → Scope) (ids : List FieldModel) (placed : List PlacedLevel) :
    Mirrors s (Catalog.walkLevels steps scopeOf ids placed) (Plan.walkLevels walk scopeOf ids placed) := by
  induction placed with
  | nil => exact .pure _
  | cons p rest ih =>
    exact (Mirrors.alone _).bind fun _ => (mirrors_walkFields (h _) _).bind fun here =>
      ih.bind fun later => .pure (here ++ later)

theorem mirrors_walkEntity (h : ∀ scope f, Mirrors s (steps scope f) (walk scope f))
    (path relationBase : String) (walking : List String) (layout : Layout)
    (attachment : Option Attachment) :
    Mirrors s (Catalog.walkEntity steps path relationBase walking layout attachment)
      (Plan.walkEntity walk path relationBase walking layout attachment) := by
  have later : ∀ {rest : Steps Entity} {rest' : Walk Entity}, Mirrors s rest rest' →
      Mirrors s
        (if attachment.isNone = true then do
          Catalog.alone (setRestriction (entityRestriction path layout))
          rest
        else rest)
        (if attachment.isNone = true then do
          setRestriction (entityRestriction path layout)
          rest'
        else rest') := fun next =>
    .ite ((Mirrors.alone _).bind fun _ => next) next
  unfold Catalog.walkEntity Plan.walkEntity
  refine .ite (.throw _) (later ?_)
  exact (Mirrors.alone _).bind fun _ => (Mirrors.alone _).bind fun _ =>
    (Mirrors.alone _).bind fun discriminator => (Mirrors.alone _).bind fun index =>
      (mirrors_walkLevels h _ _ _).bind fun members => (Mirrors.alone _).bind fun _ => .pure _

theorem mirrors_walkRelation (h : ∀ scope f, Mirrors s (steps scope f) (walk scope f)) (scope : Scope)
    (f : FieldModel) (target : TypeModel) :
    Mirrors s (Catalog.walkRelation steps scope f target) (Plan.walkRelation s walk scope f target) := by
  unfold Catalog.walkRelation Plan.walkRelation
  refine (Mirrors.lift (gives_layout target)).bind fun layout => ?_
  have later : ∀ kind parent, Mirrors s
      (do
        let condition ← Catalog.alone (liftM (relationCondition scope f target
          layout.main.table.name (joinPath scope.relationBase f.name)))
        let child ← Catalog.walkEntity steps (joinPath scope.relationBase f.name)
          (joinPath scope.relationBase f.name) scope.walking layout
          (some ⟨f, kind, ⟨parent, .left, condition, none⟩⟩)
        return .relation f kind child.head child.members .nil : Steps Members)
      (do
        let condition ← liftM (relationCondition scope f target layout.main.table.name
          (joinPath scope.relationBase f.name))
        let child ← Plan.walkEntity walk (joinPath scope.relationBase f.name)
          (joinPath scope.relationBase f.name) scope.walking layout
          (some ⟨f, kind, ⟨parent, .left, condition, none⟩⟩)
        return .relation f kind child.head child.members .nil : Walk Members) := fun kind parent =>
    (Mirrors.alone _).bind fun condition => (mirrors_walkEntity h _ _ _ _ _).bind fun child => .pure _
  dsimp only
  cases relationKind f with
  | toManyLinked =>
    cases f.link with
    | some link =>
      exact (Mirrors.alone _).bind fun a => (Mirrors.alone (addAlias a)).bind fun _ => later _ _
    | none => exact later _ _
  | toOne => exact later _ _
  | toManyDirect => exact later _ _

theorem mirrors_walkFieldBy {deeper : Option (Scope → FieldModel → Walk Members)}
    {deeper' : Option (Scope → FieldModel → Steps Members)}
    (h : Option.Rel (fun steps walk => ∀ scope f, Mirrors s (steps scope f) (walk scope f)) deeper' deeper)
    (scope : Scope) (f : FieldModel) :
    Mirrors s (Catalog.walkFieldBy deeper' scope f) (Plan.walkFieldBy s deeper scope f) := by
  unfold Catalog.walkFieldBy Plan.walkFieldBy
  cases f.cls with
  | scalar type => exact .alone _
  | enumeration name => exact .alone _
  | embedded name =>
    refine (mirrors_enter scope f name).bind fun target => ?_
    cases h with
    | none => exact .throw _
    | some h => exact mirrors_walkEmbedded h scope f target
  | relation name =>
    refine (mirrors_enter scope f name).bind fun target => ?_
    cases h with
    | none => exact .throw _
    | some h => exact mirrors_walkRelation h scope f target

theorem mirrors_walkField (depth : Nat) (scope : Scope) (f : FieldModel) :
    Mirrors s (Catalog.walkField depth scope f) (Plan.walkField s depth scope f) := by
  induction depth generalizing scope f with
  | zero => exact mirrors_walkFieldBy .none scope f
  | succ depth ih => exact mirrors_walkFieldBy (.some ih) scope f

/-! ## Plans -/

/-- **A catalog builds the plan that the schema has.** -/
theorem gives_build (name : String) : Request.Gives s (Catalog.build name) (Plan.build s name) := by
  refine .declarations ((gives_describe name).bind fun declared _ => ?_)
  refine (gives_layout declared).bind fun layout _ => ?_
  refine Request.Gives.bind (mirrors_walkEntity (mirrors_walkField s.size) _ _ _ _ _ {}) fun made _ => ?_
  exact .answer

/-! ## Calls -/

/-- A call of a catalog. -/
inductive Call where
  | describe (name : String)
  | subclasses (base : TypeModel)
  | descendants (base : TypeModel)
  | build (name : String)

/-- What a call gives. -/
inductive Answer where
  | type (t : TypeModel)
  | types (ts : List TypeModel)
  | plan (p : Plan)

/-- The request that a call is. -/
def Call.request : Call → Cached Answer
  | .describe name => .type <$> Catalog.describe name
  | .subclasses base => .types <$> Catalog.subclasses base
  | .descendants base => .types <$> Catalog.descendants base
  | .build name => .plan <$> Catalog.build name

/-- What the schema says to a call. -/
def Call.answer (s : Schema) : Call → Except Error Answer
  | .describe name => .type <$> s.describe name
  | .subclasses base => .types <$> s.subclasses base
  | .descendants base => .types <$> s.descendants base
  | .build name => .plan <$> Plan.build s name

theorem gives_request (call : Call) : call.request.Gives s (call.answer s) := by
  cases call with
  | describe name => exact (gives_describe name).map _
  | subclasses base => exact (gives_subclassesBy base).map _
  | descendants base => exact (gives_descendants base).map _
  | build name => exact (gives_build name).map _

namespace Catalog

/-- A catalog after calls, one after the other. -/
def after (c : Catalog) (history : List Call) : Catalog :=
  history.foldl (fun c call => (c.ask call.request).2) c

/-- Calls keep only what the schema describes, also those that fail. -/
theorem Reflects.after {c : Catalog} (h : c.Reflects s) (history : List Call) :
    (c.after history).Reflects s := by
  induction history generalizing c with
  | nil => exact h
  | cons call rest ih => exact ih ((gives_request call).run h).2

/-- Each of the calls that take turns is answered as the schema says, and when no turn is left, all of them
have been answered. -/
theorem Reflects.turns {c c' : Catalog} (h : c.Reflects s) {calls : List Call}
    {left : List (Request Answer)}
    (turns : Relation.ReflTransGen Turn (c, calls.map Call.request) (c', left)) :
    ((∀ q, ¬ Turn (c', left) q) → left = calls.map fun call => .answer (call.answer s)) ∧
      ∀ (n : Nat) (call : Call) (outcome : Except Error Answer), calls[n]? = some call →
        left[n]? = some (.answer outcome) → outcome = call.answer s := by
  let own (n : Nat) : Except Error Answer := (calls[n]?.map (Call.answer s)).getD (.ok (.types []))
  have own_eq : ∀ {n : Nat} {call : Call}, calls[n]? = some call → own n = call.answer s := by
    intro n call at_n
    show (calls[n]?.map _).getD _ = _
    rw [at_n]
    rfl
  have start : ∀ (n : Nat) (r : Request Answer), (calls.map Call.request)[n]? = some r →
      r.Gives s (own n) := by
    intro n r at_n
    obtain ⟨call, at_call, rfl⟩ := Option.map_eq_some_iff.mp (List.getElem?_map.symm.trans at_n)
    rw [own_eq at_call]
    exact gives_request call
  obtain ⟨-, length, gives⟩ := Request.Gives.turns turns h start
  have answered : ∀ (n : Nat) (call : Call) (outcome : Except Error Answer), calls[n]? = some call →
      left[n]? = some (.answer outcome) → outcome = call.answer s := by
    intro n call outcome at_call at_n
    rw [(gives n _ at_n).eq_of_answer, own_eq at_call]
  refine ⟨fun settled => List.ext_getElem? fun n => ?_, answered⟩
  rw [List.getElem?_map]
  rw [List.length_map] at length
  cases at_call : calls[n]? with
  | none =>
    rw [List.getElem?_eq_none_iff] at at_call
    exact List.getElem?_eq_none_iff.mpr (length ▸ at_call)
  | some call =>
    have inside : n < left.length := length ▸ (List.getElem?_eq_some_iff.mp at_call).1
    have at_n : left[n]? = some left[n] := List.getElem?_eq_getElem inside
    obtain ⟨outcome, same⟩ := answered_of_settled settled (List.getElem_mem inside)
    rw [same] at at_n
    rw [at_n, answered n call outcome at_call at_n]
    rfl

/-! ## Main result -/

/-- **What has been asked before makes no difference.** After any calls, every call is answered as by a
fresh catalog, which is what the schema says; the request for a type takes the same steps with any
higher bound. When calls take turns, they come to an end whatever the order of the turns is, and what each
of them is answered is again the same. -/
theorem calls_independent (s : Schema) (history : List Call) :
    (∀ call : Call, (((ofSchema s).after history).ask call.request).1 =
        ((ofSchema s).ask call.request).1 ∧
      ((ofSchema s).ask call.request).1 = call.answer s) ∧
    (∀ name fuel, s.size < fuel →
      describeFrom s fuel [] name = describeFrom s (s.size + 1) [] name) ∧
    (WellFounded fun q p : Catalog × List (Request Answer) => Turn p q) ∧
    ∀ (calls : List Call) (c : Catalog) (left : List (Request Answer)),
      Relation.ReflTransGen Turn ((ofSchema s).after history, calls.map Call.request) (c, left) →
        ((∀ q, ¬ Turn (c, left) q) →
          left = calls.map fun call => .answer ((ofSchema s).ask call.request).1) ∧
        ∀ (n : Nat) (call : Call) (outcome : Except Error Answer), calls[n]? = some call →
          left[n]? = some (.answer outcome) → outcome = ((ofSchema s).ask call.request).1 := by
  have fresh := reflects_ofSchema s
  have reflects := fresh.after history
  have same : ∀ call : Call, ((ofSchema s).ask call.request).1 = call.answer s := fun call =>
    ((gives_request call).run fresh).1
  refine ⟨fun call => ⟨?_, same call⟩, fun name fuel enough => describeFrom_eq_of_enough enough name,
    turns_end, fun calls c left turns => ?_⟩
  · rw [same]
    exact ((gives_request call).run reflects).1
  · simp only [same]
    exact reflects.turns turns

/-- A call that fails and a plan come before the call for a type, which is kept by then. -/
theorem calls_independent_staff :
    let c := (ofSchema staff).after [.describe "Nobody", .build "Person"]
    (c.kept? "Employee").isSome = true ∧
      (c.ask (Call.request (.describe "Employee"))).1 = .type <$> staff.describe "Employee" ∧
      (staff.describe "Employee").toOption.map (·.ancestry) = some ["Employee", "Person"] := by
  obtain ⟨independent, -, -, -⟩ :=
    calls_independent staff [.describe "Nobody", .build "Person"]
  obtain ⟨fresh, schema⟩ := independent (.describe "Employee")
  exact ⟨by decide +kernel, fresh.trans schema, by decide +kernel⟩

end Catalog

end Orm
