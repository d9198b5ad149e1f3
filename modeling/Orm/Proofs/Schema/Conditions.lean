import Mathlib.Data.List.Basic
import Orm.Proofs.Outcome
import Orm.Schema.Layout

/-!
# `Proofs.Schema.Conditions` — a schema with other join conditions

Conditions are given to fields by the type that declares them and their name. The schema that has them
describes the same types as before, with the same layouts, and only the conditions of the described
fields differ: no name, no class and no table depends on a condition.

## Contents
- **Given conditions.** `Conditions` and what it makes of fields, types, layouts and schemas.
- **Fields and types.** `allFields_type`, `idFields_type`, `lineage_type`.
- **Descriptions.** `describeField_given`, `describe_given`, `descendants_given`.
- **Layouts.** `layout_given`.
-/

namespace Orm.Schema

open Sql

/-! ## Given conditions -/

/-- Join conditions for fields, by the type that declares the field and the name of the field. -/
def Conditions := String → String → Option String

namespace Conditions

variable (g : Conditions)

/-- The attributes of a declared field with the condition that is given to it. -/
def decl (owner : String) (f : FieldDecl) : FieldDecl :=
  f.withAttrs fun a => { a with joinCondition := (g owner f.name).or a.joinCondition }

def typeDecl (t : TypeDecl) : TypeDecl :=
  { t with fields := t.fields.map (g.decl t.name) }

def source (s : Source) : Source :=
  { s with decls := s.decls.map g.typeDecl }

/-- The schema in which fields have the conditions that are given to them. -/
def schema (s : Schema) : Schema where
  sources := s.sources.map g.source

/-- A described field with the condition that is given to it. -/
def field (f : FieldModel) : FieldModel :=
  { f with joinCondition := (g f.owner f.name).or f.joinCondition }

def layer (l : TypeLayer) : TypeLayer :=
  { l with fields := l.fields.map g.field }

def type (t : TypeModel) : TypeModel where
  toTypeLayer := g.layer t.toTypeLayer
  ancestors := t.ancestors.map g.layer

def level (l : Level) : Level where
  table := l.table
  owner := g.type l.owner
  fields := l.fields.map g.field

def discrimination (d : Discrimination) : Discrimination where
  column := d.column
  base := g.type d.base
  candidates := d.candidates.map g.type
  restrictTo := d.restrictTo

def layout (l : Layout) : Layout where
  declared := g.type l.declared
  above := l.above.map g.level
  main := g.level l.main
  below := l.below.map g.level
  discrimination := l.discrimination.map g.discrimination

/-! ## Fields and types -/

theorem layers_type (t : TypeModel) : (g.type t).layers = t.layers.map g.layer := by
  unfold TypeModel.layers type
  rw [List.map_reverse, List.map_cons]

theorem flatMap_fields_layer (ls : List TypeLayer) :
    (ls.map g.layer).flatMap (·.fields) = (ls.flatMap (·.fields)).map g.field := by
  rw [List.flatMap_map, List.map_flatMap]
  rfl

@[simp]
theorem allFields_type (t : TypeModel) : (g.type t).allFields = t.allFields.map g.field := by
  unfold TypeModel.allFields
  rw [layers_type, flatMap_fields_layer]

@[simp]
theorem idFields_type (t : TypeModel) : (g.type t).idFields = t.idFields.map g.field := by
  unfold TypeModel.idFields
  rw [allFields_type, List.filter_map]
  rfl

theorem lineage_type (t : TypeModel) : (g.type t).lineage = t.lineage.map g.type := by
  have up : ∀ (above : List TypeLayer) (own : TypeLayer),
      TypeModel.upward (g.layer own) (above.map g.layer) =
        (TypeModel.upward own above).map g.type := by
    intro above
    induction above with
    | nil => exact fun own => rfl
    | cons parent rest ih =>
      intro own
      rw [List.map_cons, TypeModel.upward, TypeModel.upward, List.map_cons, ih]
      rfl
  unfold TypeModel.lineage
  rw [List.map_reverse]
  exact congrArg List.reverse (up t.ancestors t.toTypeLayer)

theorem extending_type (own : TypeLayer) (parent : Option TypeModel) :
    TypeModel.extending (g.layer own) (parent.map g.type) = g.type (.extending own parent) := by
  cases parent <;> rfl

theorem superclass?_type (t : TypeModel) :
    (g.type t).superclass? = t.superclass?.map g.type := by
  obtain ⟨own, ancestors⟩ := t
  cases ancestors <;> rfl

end Conditions

/-! ## Descriptions -/

variable {s : Schema} (g : Conditions)

theorem find?_given (name : String) : (g.schema s).find? name = (s.find? name).map g.typeDecl := by
  have served : ∀ source : Source,
      (g.source source).find? name = (source.find? name).map g.typeDecl := by
    intro source
    unfold Source.find? Conditions.source
    rw [List.find?_map]
    rfl
  unfold Schema.find? Conditions.schema
  rw [List.findSome?_map, List.map_findSome?]
  exact congrArg (fun f => s.sources.findSome? f) (funext served)

@[simp]
theorem size_given : (g.schema s).size = s.size := by
  unfold Schema.size Conditions.schema
  rw [List.foldl_map]
  unfold Source.size Conditions.source
  simp only [List.length_map]

theorem hasTable_given (fuel : Nat) (decl : TypeDecl) :
    hasTable (g.schema s) fuel (g.typeDecl decl) = hasTable s fuel decl := by
  induction fuel generalizing decl with
  | zero => rfl
  | succ fuel ih =>
    unfold hasTable
    have above : (g.typeDecl decl).superclass.bind (g.schema s).find? =
        (decl.superclass.bind s.find?).map g.typeDecl := by
      show decl.superclass.bind (g.schema s).find? = _
      cases decl.superclass with
      | none => rfl
      | some parent => exact find?_given g parent
    rw [above]
    cases decl.superclass.bind s.find? with
    | none => rfl
    | some parent =>
      rw [Option.map_some]
      simp only [ih]
      rfl

theorem classify_given (owner : String) (f : FieldDecl) (target : String) :
    classify (g.schema s) owner (g.decl owner f) target = classify s owner f target := by
  unfold classify
  rw [find?_given]
  cases s.find? target with
  | none => rfl
  | some decl =>
    rw [Option.map_some]
    simp only [hasTable_given, size_given]
    rfl

theorem fieldClass_given (owner : String) (f : FieldDecl) :
    fieldClass (g.schema s) owner (g.decl owner f) = fieldClass s owner f := by
  unfold fieldClass
  have type : (g.decl owner f).type = f.type := rfl
  rw [type]
  cases f.type with
  | value type => rfl
  | named target => exact classify_given g owner f target

theorem describeField_given (owner : String) (f : FieldDecl) :
    describeField (g.schema s) owner (g.decl owner f) = (describeField s owner f).map g.field := by
  unfold describeField
  rw [fieldClass_given]
  cases fieldClass s owner f with
  | error e => rfl
  | ok cls =>
    refine congrArg Except.ok ?_
    simp only [Conditions.decl, FieldDecl.withAttrs, FieldDecl.effective, FieldAttrs.orElse,
      Conditions.field, Option.or_assoc]

/-- Changed items make a changed list. -/
theorem mapM_map_of {α α' β β' : Type} {F : α → Except Error β} {F' : α' → Except Error β'}
    {a : α → α'} {b : β → β'} {l : List α} (h : ∀ x ∈ l, F' (a x) = (F x).map b) :
    (l.map a).mapM F' = (l.mapM F).map (List.map b) := by
  induction l with
  | nil => rfl
  | cons x rest ih =>
    rw [List.map_cons, List.mapM_cons, List.mapM_cons, h x List.mem_cons_self,
      ih fun y hy => h y (List.mem_cons_of_mem x hy)]
    cases F x with
    | error e => rfl
    | ok y => cases rest.mapM F <;> rfl

theorem describeLayer_given (decl : TypeDecl) :
    describeLayer (g.schema s) (g.typeDecl decl) = (describeLayer s decl).map g.layer := by
  have fields : (decl.fields.map (g.decl decl.name)).mapM (describeField (g.schema s) decl.name) =
      (decl.fields.mapM (describeField s decl.name)).map (List.map g.field) :=
    mapM_map_of fun f _ => describeField_given g decl.name f
  unfold describeLayer
  show ((decl.fields.map (g.decl decl.name)).mapM (describeField (g.schema s) decl.name) >>= _) = _
  rw [fields]
  cases decl.fields.mapM (describeField s decl.name) <;> rfl

theorem describeFrom_given (fuel : Nat) (chain : List String) (name : String) :
    describeFrom (g.schema s) fuel chain name = (describeFrom s fuel chain name).map g.type := by
  induction fuel generalizing chain name with
  | zero => rfl
  | succ fuel ih =>
    unfold describeFrom
    rw [find?_given]
    split_ifs with loop
    · rfl
    cases s.find? name with
    | none => rfl
    | some decl =>
      show (if decl.name.isEmpty then _ else _) = _
      simp only []
      split_ifs with nameless
      · rfl
      -- A type is its own layer on top of its parent, with or without one.
      have extended : ∀ parent : Option TypeModel,
          ((describeLayer s decl).map g.layer >>= fun own =>
            pure (TypeModel.extending own (parent.map g.type))) =
            (describeLayer s decl >>= fun own => pure (TypeModel.extending own parent)).map
              g.type := by
        intro parent
        cases describeLayer s decl with
        | error e => rfl
        | ok own => exact congrArg Except.ok (g.extending_type own parent)
      rw [describeLayer_given]
      have super : (g.typeDecl decl).superclass = decl.superclass := rfl
      rw [super]
      cases decl.superclass with
      | none => exact extended none
      | some parent =>
        simp only [ih]
        cases describeFrom s fuel (chain ++ [name]) parent with
        | error e => rfl
        | ok parent => exact extended (some parent)

/-- **The same types are described, with the conditions given to their fields.** -/
theorem describe_given (name : String) :
    (g.schema s).describe name = (s.describe name).map g.type := by
  unfold describe
  rw [describeFrom_given, size_given]

theorem subclassesBy_given (base : TypeModel) :
    subclassesBy (describe (g.schema s)) (g.type base) =
      (subclassesBy (describe s) base).map (List.map g.type) := by
  have each : ∀ name, subclassBy (describe (g.schema s)) (g.type base) name =
      (subclassBy (describe s) base name).map g.type := by
    intro name
    unfold subclassBy
    rw [describe_given]
    cases s.describe name with
    | error e => rfl
    | ok sub =>
      have parent : (g.type sub).superclass?.map (·.name) = sub.superclass?.map (·.name) := by
        rw [g.superclass?_type, Option.map_map]
        rfl
      show (if (g.type sub).superclass?.map (·.name) = some base.name then _ else _) =
        Except.map g.type (if sub.superclass?.map (·.name) = some base.name then _ else _)
      rw [parent]
      split_ifs <;> rfl
  unfold subclassesBy
  rw [← List.map_id (g.type base).subclasses]
  exact mapM_map_of fun name _ => each name

theorem descendantsBy_given (depth : Nat) (base : TypeModel) :
    descendantsBy (describe (g.schema s)) depth (g.type base) =
      (descendantsBy (describe s) depth base).map (List.map g.type) := by
  induction depth generalizing base with
  | zero => rfl
  | succ depth ih =>
    unfold descendantsBy
    rw [subclassesBy_given]
    cases subclassesBy (describe s) base with
    | error e => rfl
    | ok subs =>
      have parts : ((subs.map g.type).mapM fun sub =>
            return sub :: (← descendantsBy (describe (g.schema s)) depth sub)) =
          (subs.mapM fun sub => return sub :: (← descendantsBy (describe s) depth sub)).map
            (List.map (List.map g.type)) := by
        apply mapM_map_of
        intro sub _
        rw [ih]
        cases descendantsBy (describe s) depth sub <;> rfl
      show (((subs.map g.type).mapM fun sub =>
        return sub :: (← descendantsBy (describe (g.schema s)) depth sub)) >>= _) = _
      rw [parts]
      show _ = Except.map _ ((subs.mapM fun sub =>
        return sub :: (← descendantsBy (describe s) depth sub)) >>= _)
      cases subs.mapM fun sub => return sub :: (← descendantsBy (describe s) depth sub) with
      | error e => rfl
      | ok parts => exact congrArg Except.ok (List.map_flatten ..).symm

theorem descendants_given (base : TypeModel) :
    descendants (g.schema s) (g.type base) = (descendants s base).map (List.map g.type) := by
  unfold descendants
  rw [descendantsBy_given, size_given]

/-! ## Layouts -/

theorem ancestorLevels_given (pending : List FieldModel) (ts : List TypeModel) :
    ancestorLevels (pending.map g.field) (ts.map g.type) =
      ((ancestorLevels pending ts).1.map g.level, (ancestorLevels pending ts).2.map g.field) := by
  induction ts generalizing pending with
  | nil => rfl
  | cons t rest ih =>
    rw [List.map_cons]
    unfold ancestorLevels
    have table : (g.type t).table = t.table := rfl
    rw [table]
    have own : pending.map g.field ++ (g.type t).fields = (pending ++ t.fields).map g.field :=
      List.map_append.symm
    cases t.table with
    | none =>
      simp only [own]
      exact ih _
    | some table =>
      simp only [own]
      have below := ih []
      rw [List.map_nil] at below
      rw [below]
      rfl

theorem splitLast?_given (ls : List Level) :
    splitLast? (ls.map g.level) =
      (splitLast? ls).map fun p => (p.1.map g.level, g.level p.2) := by
  induction ls with
  | nil => rfl
  | cons l rest ih =>
    rw [List.map_cons, splitLast?, splitLast?, ih]
    cases splitLast? rest <;> rfl

theorem subclassLevel_given (declared sub : TypeModel) :
    subclassLevel (g.type declared) (g.type sub) = (subclassLevel declared sub).map g.level := by
  unfold subclassLevel
  have table : (g.type sub).table = sub.table := rfl
  rw [table]
  cases sub.table <;> rfl

theorem discriminatedLayout_given (declared : TypeModel) (home : Level) (base : TypeModel) :
    discriminatedLayout (g.schema s) (g.type declared) (g.level home) (g.type base) =
      (discriminatedLayout s declared home base).map g.layout := by
  -- A layout is made of fields, names and whether a type is registered; conditions touch the fields
  -- only, and no field is added or lost.
  have fields : ∀ ts : List TypeModel, (g.type declared).allFields ++
      (ts.map g.type).flatMap (·.fields) = (declared.allFields ++ ts.flatMap (·.fields)).map g.field := by
    intro ts
    rw [List.map_append, g.allFields_type, List.flatMap_map, List.map_flatMap]
    rfl
  have names : ∀ ts : List TypeModel,
      (ts.map g.type).map (·.registeredName) = ts.map (·.registeredName) := by
    intro ts
    rw [List.map_map]
    rfl
  have registered : ∀ ts : List TypeModel,
      (ts.map g.type).any (·.name == declared.name) = ts.any (·.name == declared.name) := by
    intro ts
    rw [List.any_map]
    rfl
  have isBase : ((g.type base).name == (g.type declared).name) = (base.name == declared.name) := rfl
  unfold discriminatedLayout
  rw [isBase]
  simp only [descendants_given]
  cases base.name == declared.name with
  | true =>
    cases descendants s declared with
    | error e => rfl
    | ok below =>
      refine congrArg Except.ok ?_
      simp only [fields, Conditions.layout]
      rfl
  | false =>
    cases descendants s base with
    | error e => rfl
    | ok group =>
      have listed := registered group
      show (if (!(group.map g.type).any (·.name == declared.name)) = true then _ else _) =
        Except.map _ (if (!group.any (·.name == declared.name)) = true then _ else _)
      rw [listed]
      cases group.any (·.name == declared.name) with
      | false => rfl
      | true =>
        cases descendants s declared with
        | error e => rfl
        | ok below =>
          have told := names (declared :: below)
          rw [List.map_cons] at told
          refine congrArg Except.ok ?_
          simp only [fields, told, Conditions.layout]
          rfl

/-- **The tables are laid out as before.** -/
theorem layout_given (declared : TypeModel) :
    (g.schema s).layout (g.type declared) = (s.layout declared).map g.layout := by
  -- The tables come from the lineage, which is that of the type, with the conditions given.
  have levels := ancestorLevels_given g [] declared.lineage
  rw [List.map_nil, ← g.lineage_type] at levels
  have last := splitLast?_given g (ancestorLevels [] declared.lineage).1
  unfold layout
  simp only [levels, last]
  cases splitLast? (ancestorLevels [] declared.lineage).1 with
  | none => rfl
  | some split =>
    obtain ⟨above, main⟩ := split
    have base : (g.type declared).lineage.find? (·.discriminator.isSome) =
        (declared.lineage.find? (·.discriminator.isSome)).map g.type := by
      rw [g.lineage_type, List.find?_map]
      rfl
    simp only [Option.map_some, base]
    cases declared.lineage.find? (·.discriminator.isSome) with
    | some base => exact discriminatedLayout_given g declared main base
    | none =>
      simp only [Option.map_none, descendants_given]
      cases descendants s declared with
      | error e => rfl
      | ok below =>
        have placed : (below.map g.type).mapM (subclassLevel (g.type declared)) =
            (below.mapM (subclassLevel declared)).map (List.map g.level) :=
          mapM_map_of fun sub _ => subclassLevel_given g declared sub
        show ((below.map g.type).mapM (subclassLevel (g.type declared)) >>= _) = _
        rw [placed]
        show _ = Except.map _ (below.mapM (subclassLevel declared) >>= _)
        cases below.mapM (subclassLevel declared) with
        | error e => rfl
        | ok levels =>
          refine congrArg Except.ok ?_
          have fields : (g.level main).fields ++ (ancestorLevels [] declared.lineage).2.map g.field =
              (main.fields ++ (ancestorLevels [] declared.lineage).2).map g.field :=
            List.map_append.symm
          simp only [fields]
          rfl

end Orm.Schema
