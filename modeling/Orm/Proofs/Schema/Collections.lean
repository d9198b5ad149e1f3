import Orm.Assembly.Basic
import Orm.Proofs.Schema.Mapping

/-!
# `Proofs.Schema.Collections` — what may be collected

A list or an array of a named type holds objects of a mapped type. When a type is described, a
collection of value objects, of types without a table, or of nothing that is declared is refused,
whatever the attributes of the field and of its target say. Enumerations are told apart before the
number of values is looked at, so a collection of constants is accepted; but a constant is read from a
text, and no array of texts is one. A row with an array for such a field never becomes an object.

## Contents
- **Tables.** `LeadsToTable`, `hasTable_size_iff`.
- **Collections.** `CollectsUnmapped`, `collects_iff`, `describeField_of_unmapped`.
- **Arrays.** `coerceItems_eq_ok_iff`, `FieldModel.coerce_array_iff`, `FieldModel.RefusesArrays`.
- **Rows.** `readValue_of_refuses`, `create_of_refuses`.
- **Main result.** `describe_collections`.
-/

namespace Orm.Schema

variable {s : Schema}

/-! ## Tables -/

/-- A declaration or one above it has a table, also one that is kept for compatibility. -/
def LeadsToTable (s : Schema) (decl : TypeDecl) : Prop :=
  ∃ steps d, s.ancestorAt decl steps = some d ∧
    (d.table.isSome = true ∨ d.compatTable.isSome = true)

/-- The search for a table goes far enough. -/
theorem hasTable_size_iff {decl : TypeDecl} : hasTable s s.size decl = true ↔ s.LeadsToTable decl := by
  constructor
  · intro has
    obtain ⟨steps, -, d, at_steps, table⟩ := hasTable_iff.mp has
    exact ⟨steps, d, at_steps, (isSome_ownTable d).mp table⟩
  · rintro ⟨steps, d, at_steps, table⟩
    rw [← hasTable_eq (Nat.le_max_left s.size steps)]
    exact hasTable_iff.mpr ⟨steps, Nat.le_max_right _ _, d, at_steps, (isSome_ownTable d).mpr table⟩

theorem hasTable_size_eq_false_iff {decl : TypeDecl} :
    hasTable s s.size decl = false ↔ ¬s.LeadsToTable decl := by
  rw [← hasTable_size_iff, Bool.not_eq_true]

/-! ## Collections -/

/-- A field holds many of a named type that does not lead to a table. -/
def CollectsUnmapped (s : Schema) (f : FieldModel) : Prop :=
  f.cardinality.isMany = true ∧ ∃ target, f.type = .named target ∧
    ∀ decl, s.find? target = some decl → ¬s.LeadsToTable decl

/-- **Of what leads to no table, only the constants of an enumeration are collected.** -/
theorem collects_iff {f : FieldModel} (h : s.Declares f) (many : f.cardinality.isMany = true) :
    s.CollectsUnmapped f ↔
      ∃ target decl, f.cls = .enumeration target ∧ s.find? target = some decl ∧
        ¬s.LeadsToTable decl := by
  constructor
  · rintro ⟨-, target, names, unmapped⟩
    obtain ⟨decl, found, ⟨-, cls⟩ | ⟨-, table, -⟩ | ⟨-, -, single, -⟩⟩ := class_of_type h names
    · exact ⟨target, decl, cls, found, unmapped decl found⟩
    · exact absurd (hasTable_size_iff.mp table) (unmapped decl found)
    · cases many.symm.trans single
  · rintro ⟨target, decl, cls, found, unmapped⟩
    refine ⟨many, target, by rw [FieldModel.type, cls], fun decl' found' => ?_⟩
    cases found.symm.trans found'
    exact unmapped

/-- A collection that is not one of constants and leads to no table cannot be described. What the
attributes of the field and the declaration of the target say about embedding is of no account. -/
theorem describeField_of_unmapped {owner target : String} {field : FieldDecl}
    (many : field.cardinality.isMany = true) (names : field.type = .named target)
    (unmapped : ∀ decl, s.find? target = some decl → decl.isEnum = false ∧ ¬s.LeadsToTable decl) :
    describeField s owner field = .error (if (s.find? target).isSome
      then .unmappedField owner field.name target else .unknownFieldType owner field.name target) := by
  refine error_bind.mpr (.inl ?_)
  unfold fieldClass
  rw [names]
  show classify s owner field target = _
  unfold classify
  cases found : s.find? target with
  | none => rfl
  | some decl =>
    obtain ⟨plain, bare⟩ := unmapped decl found
    dsimp only
    rw [plain, hasTable_size_eq_false_iff.mpr bare, many, Bool.not_true, Bool.and_false]
    rfl

/-- A type that is described has described all fields that its ancestors declare. -/
theorem describeField_of_ancestorAt {fuel : Nat} {chain : List String} {name : String} {t : TypeModel}
    (h : describeFrom s fuel chain name = .ok t) {decl d : TypeDecl} (found : s.find? name = some decl)
    {steps : Nat} (above : s.ancestorAt decl steps = some d) {field : FieldDecl}
    (hf : field ∈ d.fields) : ∃ f, describeField s d.name field = .ok f := by
  induction steps generalizing fuel chain name t decl with
  | zero =>
    cases fuel with
    | zero => cases h
    | succ fuel =>
      obtain ⟨-, decl', own, found', -, made, -⟩ := describeFrom_eq_ok_iff.mp h
      cases found.symm.trans found'
      cases above
      obtain ⟨fields, described, -⟩ := ok_bind.mp made
      obtain ⟨f, one, -⟩ := exists_of_mapM described hf
      exact ⟨f, one⟩
  | succ steps ih =>
    cases fuel with
    | zero => cases h
    | succ fuel =>
      obtain ⟨-, decl', own, found', -, -, shape⟩ := describeFrom_eq_ok_iff.mp h
      cases found.symm.trans found'
      rw [ancestorAt_succ] at above
      obtain ⟨next, declared, above⟩ := Option.bind_eq_some_iff.mp above
      obtain ⟨up, extends_, declared⟩ := Option.bind_eq_some_iff.mp declared
      rcases shape with ⟨root, -⟩ | ⟨up', parent, extends', run, -⟩
      · cases root.symm.trans extends_
      · cases extends_.symm.trans extends'
        exact ih run declared above

/-! ## Arrays -/

/-- The items of an array fit when each of them does. -/
theorem coerceItems_eq_ok_iff {type : ScalarType} {items : List Value} :
    (∃ v, Value.coerceItems type items = .ok v) ↔ ∀ item ∈ items, ∃ v, item.coerce type = .ok v := by
  constructor
  · rintro ⟨v, run⟩ item mem
    obtain ⟨fitted, run, -⟩ := map_eq_ok.mp run
    obtain ⟨v, made, -⟩ := exists_of_mapM run mem
    exact ⟨v, made⟩
  · intro each
    have run : ∃ fitted, items.mapM (Value.coerce type) = .ok fitted := by
      induction items with
      | nil => exact ⟨[], rfl⟩
      | cons item rest ih =>
        obtain ⟨v, made⟩ := each item List.mem_cons_self
        obtain ⟨fitted, run⟩ := ih fun other mem => each other (List.mem_cons_of_mem _ mem)
        exact ⟨v :: fitted, mapM_cons_ok.mpr ⟨v, fitted, made, run, rfl⟩⟩
    obtain ⟨fitted, run⟩ := run
    exact ⟨.array fitted, map_eq_ok.mpr ⟨fitted, run, rfl⟩⟩

namespace FieldModel

variable {f : FieldModel}

/-- **The arrays that a collection takes.** Values fit one by one, constants never do, and objects are
not read from columns. -/
theorem coerce_array_iff (many : f.cardinality.isMany = true) (constants : List String)
    (items : List Value) : (∃ v, f.coerce constants (.array items) = .ok v) ↔
      match f.cls with
      | .scalar type => ∀ item ∈ items, ∃ v, item.coerce type = .ok v
      | .enumeration _ => False
      | _ => True := by
  unfold FieldModel.coerce
  rw [if_neg (by exact Bool.false_ne_true)]
  cases f.cls with
  | scalar type =>
    dsimp only
    rw [if_pos many]
    exact coerceItems_eq_ok_iff
  | enumeration name => exact ⟨nofun, False.elim⟩
  | relation target | embedded target => exact ⟨fun _ => trivial, fun _ => ⟨_, rfl⟩⟩

/-- No array fits the field. -/
def RefusesArrays (f : FieldModel) : Prop :=
  ∀ constants items, ∃ r, f.coerce constants (.array items) = .error r

/-- **The collections that take no array are those of constants.** -/
theorem refusesArrays_iff (many : f.cardinality.isMany = true) :
    f.RefusesArrays ↔ ∃ target, f.cls = .enumeration target := by
  constructor
  · intro refuses
    obtain ⟨r, failed⟩ := refuses [] []
    have empty : ¬∃ v, f.coerce [] (.array []) = .ok v := fun ⟨_, taken⟩ =>
      nomatch failed.symm.trans taken
    rw [coerce_array_iff many] at empty
    cases cls : f.cls with
    | scalar type =>
      rw [cls] at empty
      exact absurd (fun _ mem => nomatch mem) empty
    | enumeration target => exact ⟨target, rfl⟩
    | relation target | embedded target =>
      rw [cls] at empty
      exact absurd trivial empty
  · rintro ⟨target, cls⟩ constants items
    cases result : f.coerce constants (.array items) with
    | error r => exact ⟨r, rfl⟩
    | ok v =>
      have taken := (coerce_array_iff many constants items).mp ⟨v, result⟩
      rw [cls] at taken
      exact taken.elim

end FieldModel

/-! ## Rows -/

open Assembly

/-- A value of a row is not read into a field that takes no array if it is one. -/
theorem readValue_of_refuses {f : FieldModel} (refuses : f.RefusesArrays) {row : Row} {label : String}
    {items : List Value} (stored : row.getOrNull label = .array items) (path : String) :
    ∃ e, Assembly.readValue s row path f label = .error e := by
  unfold Assembly.readValue
  rw [stored]
  cases s.constantsOf f with
  | error e => exact ⟨e, rfl⟩
  | ok constants =>
    obtain ⟨r, failed⟩ := refuses constants items
    refine ⟨.unfitValue f.owner f.name path r, error_bind.mpr (.inr ⟨constants, rfl, ?_⟩)⟩
    rw [failed]
    rfl

theorem readColumns_of_refuses {f : FieldModel} (refuses : f.RefusesArrays) {row : Row}
    {label : String} {items : List Value} (stored : row.getOrNull label = .array items) (path : String)
    {applies : FieldModel → Bool} (owned : applies f = true) {columns : List (FieldModel × String)}
    (read : (f, label) ∈ columns) (fields : Fields) :
    ∃ e, readColumns s row path applies columns fields = .error e := by
  induction columns generalizing fields with
  | nil => cases read
  | cons column rest ih =>
    obtain ⟨g, other⟩ := column
    unfold readColumns
    rcases List.mem_cons.mp read with here | later
    · cases here
      obtain ⟨e, failed⟩ := readValue_of_refuses (s := s) refuses stored path
      rw [if_pos owned, failed]
      exact ⟨e, rfl⟩
    · split
      next =>
        cases Assembly.readValue s row path g other with
        | error e => exact ⟨e, rfl⟩
        | ok value => exact ih later _
      next => exact ih later fields

/-- An object is not made from a row with an array for one of its fields that takes none. -/
theorem create_of_refuses {f : FieldModel} (refuses : f.RefusesArrays) {row : Row} {label : String}
    {items : List Value} (stored : row.getOrNull label = .array items) {e : Plan.EntityHead}
    {members : Plan.Members} (read : (f, label) ∈ members.columns)
    (owned : (Plan.typeOf e row).isA f.owner = true) (key : Key) :
    ∃ err, create s row e members key = .error err := by
  let applies : FieldModel → Bool := fun g => (Plan.typeOf e row).isA g.owner
  have applied : applies f = true := owned
  obtain ⟨err, failed⟩ := readColumns_of_refuses (s := s) refuses stored e.path applied read .nil
  refine ⟨err, error_bind.mpr (.inl ?_)⟩
  exact error_bind.mpr (.inl failed)

/-! ## Main result -/

/-- **What is collected, and what of it can be read.** A list or an array of a named type is described
just if it holds objects of a mapped type or constants of an enumeration; whatever else it holds, the
type that declares it fails to be described, and so does every type that extends that one. Of what leads
to no table, a described type therefore collects constants only, and these are the collections that
no array of a row fits, so that no object is made of such a row. -/
theorem describe_collections (s : Schema) (name : String) :
    (∀ t, s.describe name = .ok t → ∀ f ∈ t.allFields, f.cardinality.isMany = true →
      (∀ target, f.type = .named target → ∃ decl, s.find? target = some decl ∧
        (decl.isEnum = false ∧ s.LeadsToTable decl ∧ f.cls = .relation target ∨
          decl.isEnum = true ∧ f.cls = .enumeration target)) ∧
      (s.CollectsUnmapped f ↔ ∃ target decl, f.cls = .enumeration target ∧
        s.find? target = some decl ∧ ¬s.LeadsToTable decl) ∧
      (f.RefusesArrays ↔ ∃ target, f.cls = .enumeration target) ∧
      (f.RefusesArrays → ∀ (row : Row) (label : String) (items : List Value) (e : Plan.EntityHead)
        (members : Plan.Members) (key : Key), row.getOrNull label = .array items →
          (f, label) ∈ members.columns → (Plan.typeOf e row).isA f.owner = true →
          ∃ err, create s row e members key = .error err)) ∧
    ∀ decl steps d, s.find? name = some decl → s.ancestorAt decl steps = some d →
      ∀ field ∈ d.fields, field.cardinality.isMany = true →
        ∀ target, field.type = .named target →
          (∀ u, s.find? target = some u → u.isEnum = false ∧ ¬s.LeadsToTable u) →
          describeField s d.name field = .error (if (s.find? target).isSome
            then .unmappedField d.name field.name target
            else .unknownFieldType d.name field.name target) ∧
          ∃ err, s.describe name = .error err := by
  constructor
  · intro t described f hf many
    have declared : s.Declares f := Describes.declares ⟨name, described⟩ hf
    refine ⟨fun target names => ?_, collects_iff declared many, FieldModel.refusesArrays_iff many,
      fun refuses row label items e members key stored read owned =>
        create_of_refuses refuses stored read owned key⟩
    obtain ⟨decl, found, ⟨enum, cls⟩ | ⟨plain, table, cls⟩ | ⟨-, -, single, -⟩⟩ :=
      class_of_type declared names
    · exact ⟨decl, found, .inr ⟨enum, cls⟩⟩
    · exact ⟨decl, found, .inl ⟨plain, hasTable_size_iff.mp table, cls⟩⟩
    · cases many.symm.trans single
  · intro decl steps d found above field hf many target names unmapped
    have refused : describeField s d.name field = _ := describeField_of_unmapped many names unmapped
    refine ⟨refused, ?_⟩
    cases described : s.describe name with
    | error err => exact ⟨err, rfl⟩
    | ok t =>
      obtain ⟨f, one⟩ := describeField_of_ancestorAt described found above hf
      cases refused.symm.trans one

/-- A shirt comes in colors, which are constants; a coat has sleeves, which are value objects. -/
def wardrobe : Schema where
  sources := [⟨.runtime, [
    { name := "Color", isEnum := true, constants := ["RED", "BLUE"] },
    { name := "Sleeve", embeddable := true, fields := [{ name := "length", type := .value .int }] },
    { name := "Shirt", table := some ⟨none, "shirt"⟩,
      fields := [{ name := "id", type := .value .int, attrs := { id := some true } },
        { name := "colors", type := .named "Color", cardinality := .list }] },
    { name := "Coat", table := some ⟨none, "coat"⟩,
      fields := [{ name := "sleeves", type := .named "Sleeve", cardinality := .list }] }]⟩]

theorem describe_collections_wardrobe : ∃ t f, wardrobe.describe "Shirt" = .ok t ∧
    f ∈ t.allFields ∧ wardrobe.CollectsUnmapped f ∧ f.RefusesArrays ∧
    ∃ err, wardrobe.describe "Coat" = .error err := by
  have bare : ∀ name {decl}, wardrobe.find? name = some decl →
      hasTable wardrobe wardrobe.size decl = false → ∀ u, wardrobe.find? name = some u →
      ¬wardrobe.LeadsToTable u := fun name decl found none u found' => by
    cases found.symm.trans found'
    exact hasTable_size_eq_false_iff.mp none
  obtain ⟨t, described, shown⟩ := ok_of_map (x := wardrobe.describe "Shirt")
    (f := fun t => t.allFields.map fun f => (f.cls, f.cardinality.isMany))
    (b := [(.scalar .int, false), (.enumeration "Color", true)]) (by decide)
  have listed : (FieldClass.enumeration "Color", true) ∈
      t.allFields.map fun f => (f.cls, f.cardinality.isMany) := by
    rw [shown]
    exact List.mem_cons_of_mem _ List.mem_cons_self
  obtain ⟨f, hf, same⟩ := List.mem_map.mp listed
  obtain ⟨cls, many⟩ := Prod.mk.inj same
  obtain ⟨-, collects, refuses, -⟩ := (describe_collections wardrobe "Shirt").1 t described f hf many
  obtain ⟨-, failed⟩ := (describe_collections wardrobe "Coat").2 _ 0 _ rfl rfl _ List.mem_cons_self rfl
    "Sleeve" rfl fun u found => by
      cases found
      exact ⟨rfl, bare "Sleeve" rfl (by decide) _ rfl⟩
  exact ⟨t, f, described, hf, collects.mpr ⟨"Color", _, cls, rfl,
    bare "Color" rfl (by decide) _ rfl⟩, refuses.mpr ⟨"Color", cls⟩, failed⟩

end Orm.Schema
