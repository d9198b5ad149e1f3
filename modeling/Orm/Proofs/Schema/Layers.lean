import Mathlib.Data.List.Nodup
import Orm.Proofs.Schema.Levels

/-!
# `Proofs.Schema.Layers` — the layers of described types

A type is described layer by layer, and what a layer says depends on its name alone. So two types
that share an ancestor share all that it declares, and a field belongs to every type that is one of
its owner's.

## Contents
- **Layers.** `Schema.HasLayer`, `Schema.Describes`, `Schema.Declares`.
- **Fields.** `mem_allFields_of_isA`, `Schema.NamesFields` (decided by `namesFields_iff`), `eq_of_name_eq`.
- **Layouts.** `Layout.Sound`, `sound_of_layout`, `layout_declared`.
-/

namespace Orm

open Schema

/-! ## Layers -/

/-- A layer is what the schema makes of the declaration of its name. -/
def Schema.HasLayer (s : Schema) (l : TypeLayer) : Prop :=
  ∃ decl, s.find? l.name = some decl ∧ describeLayer s decl = .ok l

/-- A type is what the schema describes under some name. -/
def Schema.Describes (s : Schema) (t : TypeModel) : Prop :=
  ∃ name, s.describe name = .ok t

/-- A field is one of a layer. -/
def Schema.Declares (s : Schema) (f : FieldModel) : Prop :=
  ∃ l, s.HasLayer l ∧ f ∈ l.fields

/-- No described type has two fields of one name. -/
def Schema.NamesFields (s : Schema) : Prop :=
  ∀ name t, s.describe name = .ok t → (t.allFields.map (·.name)).Nodup

namespace Schema

variable {s : Schema}

theorem HasLayer.unique {l l' : TypeLayer} (h : s.HasLayer l) (h' : s.HasLayer l')
    (same : l.name = l'.name) : l = l' := by
  obtain ⟨decl, found, made⟩ := h
  obtain ⟨decl', found', made'⟩ := h'
  rw [same, found'] at found
  cases found
  rw [made] at made'
  exact Except.ok.inj made'

theorem name_of_describeLayer {decl : TypeDecl} {l : TypeLayer}
    (h : describeLayer s decl = .ok l) : l.name = decl.name := by
  obtain ⟨fields, -, result⟩ := ok_bind.mp h
  cases result
  rfl

theorem owner_of_describeField {owner : String} {decl : FieldDecl} {f : FieldModel}
    (h : describeField s owner decl = .ok f) : f.owner = owner := by
  obtain ⟨cls, -, result⟩ := ok_bind.mp h
  cases result
  rfl

/-- The fields of a layer are owned by it. -/
theorem HasLayer.owner {l : TypeLayer} (h : s.HasLayer l) {f : FieldModel} (hf : f ∈ l.fields) :
    f.owner = l.name := by
  obtain ⟨decl, -, made⟩ := h
  have name := name_of_describeLayer made
  obtain ⟨fields, described, result⟩ := ok_bind.mp made
  cases result
  obtain ⟨field, -, one⟩ := mem_of_mapM described hf
  rw [owner_of_describeField one, name]

/-- **Every layer of a described type is one of the schema.** -/
theorem hasLayer_of_describeFrom {fuel : Nat} {chain : List String} {name : String} {t : TypeModel}
    (h : describeFrom s fuel chain name = .ok t) :
    ∀ l ∈ t.toTypeLayer :: t.ancestors, s.HasLayer l := by
  induction fuel generalizing chain name t with
  | zero => cases h
  | succ fuel ih =>
    unfold describeFrom at h
    split at h
    · cases h
    cases found : s.find? name with
    | none => rw [found] at h; cases h
    | some decl =>
      rw [found] at h
      dsimp only at h
      split at h
      · cases h
      have ownLayer : ∀ {own}, describeLayer s decl = .ok own → s.HasLayer own := fun made => by
        refine ⟨decl, ?_, made⟩
        rw [name_of_describeLayer made, name_of_find? found]
        exact found
      cases sup : decl.superclass with
      | none =>
        rw [sup] at h
        obtain ⟨parent, root, rest⟩ := ok_bind.mp h
        obtain ⟨own, made, result⟩ := ok_bind.mp rest
        cases root
        cases result
        intro l hl
        rw [List.mem_singleton.mp hl]
        exact ownLayer made
      | some up =>
        rw [sup] at h
        obtain ⟨parent, above, rest⟩ := ok_bind.mp h
        obtain ⟨own, made, result⟩ := ok_bind.mp rest
        rw [map_eq_pure_bind] at above
        obtain ⟨p, run, same⟩ := ok_bind.mp above
        cases same
        cases result
        intro l hl
        rcases List.mem_cons.mp hl with rfl | inherited
        · exact ownLayer made
        · exact ih run l inherited

theorem Describes.hasLayer {t : TypeModel} (h : s.Describes t) :
    ∀ l ∈ t.toTypeLayer :: t.ancestors, s.HasLayer l := by
  obtain ⟨name, described⟩ := h
  exact hasLayer_of_describeFrom described

/-! ## Fields -/

theorem mem_allFields {t : TypeModel} {f : FieldModel} :
    f ∈ t.allFields ↔ ∃ l ∈ t.toTypeLayer :: t.ancestors, f ∈ l.fields := by
  unfold TypeModel.allFields TypeModel.layers
  rw [List.mem_flatMap]
  exact exists_congr fun l => and_congr_left fun _ => List.mem_reverse

theorem Describes.declares {t : TypeModel} (h : s.Describes t) {f : FieldModel}
    (hf : f ∈ t.allFields) : s.Declares f := by
  obtain ⟨l, hl, inLayer⟩ := mem_allFields.mp hf
  exact ⟨l, h.hasLayer l hl, inLayer⟩

/-- **A field belongs to every type that is one of its owner's.** -/
theorem mem_allFields_of_isA {t : TypeModel} (h : s.Describes t) {f : FieldModel}
    (declared : s.Declares f) (isA : t.isA f.owner = true) : f ∈ t.allFields := by
  obtain ⟨l, layer, hf⟩ := declared
  obtain ⟨own, hown, name⟩ := List.any_eq_true.mp isA
  have same : own = l := (h.hasLayer own hown).unique layer (by
    rw [← layer.owner hf]
    exact beq_iff_eq.mp name)
  rw [same] at hown
  exact mem_allFields.mpr ⟨l, hown, hf⟩

/-- Where names tell the fields of a type apart, two of them with one name are one. -/
theorem NamesFields.eq_of_name_eq (named : s.NamesFields) {t : TypeModel} (h : s.Describes t)
    {f g : FieldModel} (hf : f ∈ t.allFields) (hg : g ∈ t.allFields) (same : f.name = g.name) :
    f = g := by
  obtain ⟨name, described⟩ := h
  exact List.inj_on_of_nodup_map (named name t described) hf hg same

/-- The names that a schema declares. -/
def names (s : Schema) : List String :=
  s.sources.flatMap fun source => source.decls.map (·.name)

/-- Only declared names are described. -/
theorem mem_names_of_describe {name : String} {t : TypeModel} (h : s.describe name = .ok t) :
    name ∈ s.names := by
  have declared : ∃ decl, s.find? name = some decl := by
    cases found : s.find? name with
    | some decl => exact ⟨decl, rfl⟩
    | none =>
      unfold describe describeFrom at h
      rw [found] at h
      cases h
  obtain ⟨decl, found⟩ := declared
  obtain ⟨source, hs, inSource⟩ := List.exists_of_findSome?_eq_some found
  refine List.mem_flatMap.mpr ⟨source, hs, List.mem_map.mpr ⟨decl, ?_, name_of_find? found⟩⟩
  exact List.mem_of_find?_eq_some inSource

theorem namesFields_iff : s.NamesFields ↔ ∀ name ∈ s.names,
    ((s.describe name).toOption.all fun t => decide (t.allFields.map (·.name)).Nodup) = true := by
  constructor
  · intro named name _
    cases described : s.describe name with
    | error e => rfl
    | ok t => exact decide_eq_true (named name t described)
  · intro all name t described
    have here := all name (mem_names_of_describe described)
    rw [described] at here
    exact of_decide_eq_true here

instance : Decidable s.NamesFields :=
  decidable_of_iff _ namesFields_iff.symm

/-! ## Layouts -/

/-- What the levels of a layout hold are fields of the schema, and the types that its rows may have
are described. -/
structure Layout.Sound (s : Schema) (l : Layout) : Prop where
  declared : s.Describes l.declared
  fields : ∀ level ∈ l.above ++ l.main :: l.below, ∀ f ∈ level.fields, s.Declares f
  below : ∀ level ∈ l.below, s.Describes level.owner
  candidates : ∀ d, l.discrimination = some d → ∀ t ∈ d.candidates, s.Describes t

/-- A descendant is a subclass or a descendant of one. -/
theorem exists_of_mem_descendants {depth : Nat} {base : TypeModel} {below : List TypeModel}
    (h : descendantsBy (describe s) (depth + 1) base = .ok below) {t : TypeModel} (ht : t ∈ below) :
    ∃ subs, subclassesBy (describe s) base = .ok subs ∧ ∃ sub ∈ subs, ∃ deeper,
      descendantsBy (describe s) depth sub = .ok deeper ∧ sub :: deeper ⊆ below ∧
        (t = sub ∨ t ∈ deeper) := by
  obtain ⟨subs, listed, rest⟩ := ok_bind.mp h
  obtain ⟨parts, run, result⟩ := ok_bind.mp rest
  cases result
  obtain ⟨part, hpart, inPart⟩ := List.mem_flatten.mp ht
  obtain ⟨sub, hsub, one⟩ := mem_of_mapM run hpart
  obtain ⟨deeper, descend, made⟩ := ok_bind.mp one
  cases made
  exact ⟨subs, listed, sub, hsub, deeper, descend, fun u hu => List.mem_flatten.mpr ⟨_, hpart, hu⟩,
    List.mem_cons.mp inPart⟩

theorem describes_of_mem_descendants {depth : Nat} {base : TypeModel} {ts : List TypeModel}
    (h : descendantsBy (describe s) depth base = .ok ts) {t : TypeModel} (ht : t ∈ ts) :
    s.Describes t := by
  induction depth generalizing base ts with
  | zero =>
    cases h
    cases ht
  | succ depth ih =>
    obtain ⟨subs, listed, sub, hsub, deeper, below, -, rfl | inside⟩ := exists_of_mem_descendants h ht
    · obtain ⟨name, -, found⟩ := mem_of_mapM listed hsub
      obtain ⟨described, run', checked⟩ := ok_bind.mp found
      dsimp only at checked
      split at checked
      · cases checked
        exact ⟨name, run'⟩
      · cases checked
    · exact ih below inside

/-- **A layout of a described type is sound.** -/
theorem sound_of_layout {declared : TypeModel} {l : Layout} (described : s.Describes declared)
    (h : s.layout declared = .ok l) : l.Sound s ∧ l.declared = declared := by
  have ownFields : ∀ {t : TypeModel} {f}, s.Describes t → f ∈ t.fields → s.Declares f :=
    fun ht hf => ⟨_, ht.hasLayer _ List.mem_cons_self, hf⟩
  cases laid_of_layout h with
  | discriminated home based descend =>
    have isBelow := fun t => describes_of_mem_descendants (t := t) descend
    refine ⟨⟨described, ?_, fun _ hl => (nomatch hl), ?_⟩, rfl⟩
    · intro level hl f hf
      rw [List.mem_singleton.mp hl] at hf
      rcases List.mem_append.mp hf with own | sub
      · exact described.declares own
      · obtain ⟨t, ht, inType⟩ := List.mem_flatMap.mp sub
        exact ownFields (isBelow t ht) inType
    · intro d hd t ht
      cases hd
      rcases List.mem_cons.mp ht with rfl | sub
      · exact described
      · exact isBelow t sub
  | @vertical below above levels main alone descend placed spread =>
    have levelOf : ∀ level ∈ levels, s.Describes level.owner ∧
        ∀ f ∈ level.fields, s.Declares f := fun level hl => by
      obtain ⟨sub, hsub, made⟩ := mem_of_mapM placed hl
      have describes := describes_of_mem_descendants descend hsub
      obtain ⟨rfl, fields⟩ := of_subclassLevel made
      exact ⟨describes, fun f hf => ownFields describes (fields ▸ hf)⟩
    refine ⟨⟨described, ?_, fun level hl => (levelOf level hl).1, nofun⟩, rfl⟩
    intro level hl f hf
    rw [List.append_cons] at hl
    rcases List.mem_append.mp hl with ancestral | sub
    · exact described.declares (spread.mem_allFields_iff.mp ⟨level, ancestral, hf⟩)
    · exact (levelOf level sub).2 f hf

/-- Layouts are those of the types that they declare. -/
theorem layout_declared {name : String} {target : TypeModel} {layout : Layout}
    (describes : s.describe name = .ok target) (lays : s.layout target = .ok layout) :
    s.layout layout.declared = .ok layout :=
  (sound_of_layout ⟨name, describes⟩ lays).2 ▸ lays

end Schema

end Orm
