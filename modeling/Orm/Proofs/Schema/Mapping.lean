import Orm.Proofs.Schema.Bounds

/-!
# `Proofs.Schema.Mapping` — relations lead to mapped types

Whether a type is mapped is asked in two ways. When a field is classified, tables are looked for in the
declarations, from the named one up. When a type is laid out, it has been described, and its layers say
whether one of them has a table. The two agree on every type that can be described, so a relation never
leads to a type without a table.

## Contents
- **Described layers.** `table_of_describeLayer`, `isMapped_extending`, `declaration_of_describe`.
- **Tables.** `hasTable_of_describeFrom`, `isSome_ownTable`, `isMapped_iff`.
- **Classes.** `class_of_classify`, `type_of_describeField`, `class_of_type`.
- **Layouts.** `kind_of_describeFrom`, `kind_of_descendants`, `layout_eq_noTable_iff`.
- **Main result.** `classified_as_mapped`.
-/

namespace Orm.Schema

variable {s : Schema}

/-! ## Described layers -/

/-- A layer has the table that is declared, and it is an enumeration if that is declared. -/
theorem table_of_describeLayer {decl : TypeDecl} {own : TypeLayer}
    (h : describeLayer s decl = .ok own) :
    own.table = decl.ownTable ∧ own.isEnum = decl.isEnum := by
  obtain ⟨fields, -, result⟩ := ok_bind.mp h
  cases result
  exact ⟨rfl, rfl⟩

/-- A described type is an enumeration if its declaration says so. -/
theorem declaration_of_describe {name : String} {t : TypeModel} (h : s.describe name = .ok t) :
    ∃ decl, s.find? name = some decl ∧ t.isEnum = decl.isEnum := by
  obtain ⟨-, decl, own, found, -, made, shape⟩ := describeFrom_eq_ok_iff.mp h
  refine ⟨decl, found, ?_⟩
  rw [← (table_of_describeLayer made).2]
  rcases shape with ⟨-, rfl⟩ | ⟨_, _, -, -, rfl⟩ <;> rfl

theorem isMapped_root (own : TypeLayer) :
    (TypeModel.extending own none).isMapped = own.table.isSome :=
  Bool.or_false _

/-- A type is mapped by its own table or by what it extends. -/
theorem isMapped_extending (own : TypeLayer) (parent : TypeModel) :
    (TypeModel.extending own (some parent)).isMapped = (own.table.isSome || parent.isMapped) := rfl

/-! ## Tables -/

/-- **The search for a table finds one just if the described type is mapped**, when it may go up as far
as the type has ancestors. -/
theorem hasTable_of_describeFrom {fuel : Nat} {chain : List String} {name : String} {t : TypeModel}
    (h : describeFrom s fuel chain name = .ok t) {decl : TypeDecl} (found : s.find? name = some decl)
    {bound : Nat} (enough : t.ancestors.length ≤ bound) : hasTable s bound decl = t.isMapped := by
  induction fuel generalizing chain name t decl bound with
  | zero => cases h
  | succ fuel ih =>
    obtain ⟨-, decl', own, found', -, made, shape⟩ := describeFrom_eq_ok_iff.mp h
    cases found.symm.trans found'
    have table := (table_of_describeLayer made).1
    rcases shape with ⟨root, rfl⟩ | ⟨up, parent, extends_, above, rfl⟩
    · rw [isMapped_root, table]
      cases bound with
      | zero => rfl
      | succ bound =>
        unfold hasTable
        rw [root]
        exact Bool.or_false _
    · rw [isMapped_extending, table]
      cases bound with
      | zero => cases enough
      | succ bound =>
        have inherited : ∃ next, s.find? up = some next := by
          cases fuel with
          | zero => cases above
          | succ fuel =>
            obtain ⟨-, next, -, declared, -⟩ := describeFrom_eq_ok_iff.mp above
            exact ⟨next, declared⟩
        obtain ⟨next, declared⟩ := inherited
        unfold hasTable
        rw [extends_, Option.bind_some, declared]
        dsimp only
        rw [ih above declared (Nat.le_of_succ_le_succ enough)]

/-- The table of a declaration may be one that is kept for compatibility. -/
theorem isSome_ownTable (d : TypeDecl) :
    d.ownTable.isSome = true ↔ d.table.isSome = true ∨ d.compatTable.isSome = true := by
  unfold TypeDecl.ownTable
  rw [Option.isSome_or, Bool.or_eq_true]

/-- A described type is mapped just if its declaration or one above it has a table, also one kept for
compatibility. -/
theorem isMapped_iff {name : String} {t : TypeModel} (h : s.describe name = .ok t) {decl : TypeDecl}
    (found : s.find? name = some decl) :
    t.isMapped = true ↔ ∃ steps d, s.ancestorAt decl steps = some d ∧
      (d.table.isSome = true ∨ d.compatTable.isSome = true) := by
  constructor
  · intro mapped
    rw [← hasTable_of_describeFrom h found (Nat.le_refl _)] at mapped
    obtain ⟨steps, -, d, at_steps, table⟩ := hasTable_iff.mp mapped
    exact ⟨steps, d, at_steps, (isSome_ownTable d).mp table⟩
  · rintro ⟨steps, d, at_steps, table⟩
    -- the table may lie higher than the bound of the search, which makes no difference
    have bound : t.ancestors.length ≤ max steps t.ancestors.length := Nat.le_max_right _ _
    rw [← hasTable_of_describeFrom h found bound]
    exact hasTable_iff.mpr ⟨steps, Nat.le_max_left _ _, d, at_steps, (isSome_ownTable d).mpr table⟩

/-! ## Classes -/

/-- What a field that names a type stands for. -/
theorem class_of_classify {owner : String} {field : FieldDecl} {target : String} {cls : FieldClass}
    (h : classify s owner field target = .ok cls) : ∃ decl, s.find? target = some decl ∧
      (decl.isEnum = true ∧ cls = .enumeration target ∨
        decl.isEnum = false ∧ hasTable s s.size decl = true ∧ cls = .relation target ∨
        decl.isEnum = false ∧ hasTable s s.size decl = false ∧ field.cardinality.isMany = false ∧
          cls = .embedded target) := by
  unfold classify at h
  split at h
  next => cases h
  next decl found =>
  refine ⟨decl, found, ?_⟩
  split at h
  next enum =>
    cases h
    exact .inl ⟨enum, rfl⟩
  next plain =>
  split at h
  next table =>
    cases h
    exact .inr (.inl ⟨Bool.eq_false_iff.mpr plain, table, rfl⟩)
  next bare =>
  split at h
  next fits =>
    cases h
    have single : field.cardinality.isMany = false := by
      rw [Bool.and_eq_true, Bool.not_eq_true'] at fits
      exact fits.2
    exact .inr (.inr ⟨Bool.eq_false_iff.mpr plain, Bool.eq_false_iff.mpr bare, single, rfl⟩)
  next => cases h

/-- A described field has the type that is declared. -/
theorem type_of_describeField {owner : String} {field : FieldDecl} {f : FieldModel}
    (h : describeField s owner field = .ok f) : f.type = field.type := by
  obtain ⟨cls, classed, result⟩ := ok_bind.mp h
  cases result
  unfold fieldClass at classed
  split at classed
  next declared =>
    cases classed
    exact declared.symm
  next declared =>
    obtain ⟨decl, -, ⟨-, rfl⟩ | ⟨-, -, rfl⟩ | ⟨-, -, -, rfl⟩⟩ := class_of_classify classed <;>
      exact declared.symm

/-- A field of the schema that names a type has been classified by it. -/
theorem class_of_type {f : FieldModel} (h : s.Declares f) {name : String}
    (names : f.type = .named name) : ∃ decl, s.find? name = some decl ∧
      (decl.isEnum = true ∧ f.cls = .enumeration name ∨
        decl.isEnum = false ∧ hasTable s s.size decl = true ∧ f.cls = .relation name ∨
        decl.isEnum = false ∧ hasTable s s.size decl = false ∧ f.cardinality.isMany = false ∧
          f.cls = .embedded name) := by
  obtain ⟨l, ⟨decl, -, made⟩, hf⟩ := h
  obtain ⟨fields, described, result⟩ := ok_bind.mp made
  cases result
  obtain ⟨field, -, one⟩ := mem_of_mapM described hf
  rw [type_of_describeField one] at names
  obtain ⟨cls, classed, result⟩ := ok_bind.mp one
  cases result
  unfold fieldClass at classed
  rw [names] at classed
  exact class_of_classify classed

/-! ## Layouts -/

/-- A field that cannot be described does not fail for want of a table. -/
theorem kind_of_describeField {owner : String} {field : FieldDecl} {e : Error}
    (h : describeField s owner field = .error e) : e.kind ≠ .missingTable := by
  rcases error_bind.mp h with classed | ⟨_, _, done⟩
  case inr => cases done
  unfold fieldClass at classed
  split at classed
  · cases classed
  · unfold classify at classed
    split at classed
    · cases classed
      exact ErrorKind.noConfusion
    · split at classed
      · cases classed
      split at classed
      · cases classed
      split at classed
      · cases classed
      · cases classed
        exact ErrorKind.noConfusion

theorem kind_of_describeLayer {decl : TypeDecl} {e : Error} (h : describeLayer s decl = .error e) :
    e.kind ≠ .missingTable := by
  rcases error_bind.mp h with fields | ⟨_, _, done⟩
  · obtain ⟨field, -, failed⟩ := error_of_mapM fields
    exact kind_of_describeField failed
  · cases done

/-- A type that cannot be described does not fail for want of a table. -/
theorem kind_of_describeFrom {fuel : Nat} {chain : List String} {name : String} {e : Error}
    (h : describeFrom s fuel chain name = .error e) : e.kind ≠ .missingTable := by
  induction fuel generalizing chain name with
  | zero =>
    cases h
    exact ErrorKind.noConfusion
  | succ fuel ih =>
    unfold describeFrom at h
    split at h
    · cases h
      exact ErrorKind.noConfusion
    split at h
    · cases h
      exact ErrorKind.noConfusion
    next decl _ =>
    split at h
    · cases h
      exact ErrorKind.noConfusion
    have onTop : ∀ {parent}, (do
        let own ← describeLayer s decl
        return TypeModel.extending own parent) = .error e → e.kind ≠ .missingTable := fun failed => by
      rcases error_bind.mp failed with layer | ⟨_, _, done⟩
      · exact kind_of_describeLayer layer
      · cases done
    cases extends_ : decl.superclass with
    | none =>
      rw [extends_] at h
      exact onTop h
    | some up =>
      rw [extends_] at h
      rcases error_bind.mp h with above | ⟨parent, -, rest⟩
      · rw [map_eq_pure_bind] at above
        rcases error_bind.mp above with failed | ⟨_, _, done⟩
        · exact ih failed
        · cases done
      · exact onTop rest

/-- Descendants that cannot be listed do not fail for want of a table. -/
theorem kind_of_descendants {depth : Nat} {base : TypeModel} {e : Error}
    (h : descendantsBy (describe s) depth base = .error e) : e.kind ≠ .missingTable := by
  induction depth generalizing base with
  | zero => cases h
  | succ depth ih =>
    rcases error_bind.mp h with listed | ⟨subs, -, rest⟩
    · obtain ⟨name, -, failed⟩ := error_of_mapM listed
      rcases error_bind.mp failed with undescribed | ⟨sub, -, checked⟩
      · exact kind_of_describeFrom undescribed
      · dsimp only at checked
        split at checked
        · cases checked
        · cases checked
          exact ErrorKind.noConfusion
    · rcases error_bind.mp rest with below | ⟨_, _, done⟩
      · obtain ⟨sub, -, failed⟩ := error_of_mapM below
        rcases error_bind.mp failed with deeper | ⟨_, _, done⟩
        · exact ih deeper
        · cases done
      · cases done

/-- A type is mapped just if a type of its lineage has a table. -/
theorem isMapped_eq_false_iff {t : TypeModel} :
    t.isMapped = false ↔ ∀ u ∈ t.lineage, u.table = none := by
  have layers : (∀ u ∈ t.lineage, u.table = none) ↔
      ∀ l ∈ t.toTypeLayer :: t.ancestors, l.table = none := by
    rw [← List.forall_mem_map (f := TypeModel.toTypeLayer) (P := fun l => l.table = none),
      TypeModel.map_lineage, TypeModel.layers]
    exact forall_congr' fun l => imp_congr_left List.mem_reverse
  rw [layers, TypeModel.isMapped, List.any_eq_false]
  exact forall₂_congr fun l _ => by rw [Bool.not_eq_true, Option.isSome_eq_false_iff,
    Option.isNone_iff_eq_none]

/-- **A type has no layout for want of a table just if it is not mapped.** -/
theorem layout_eq_noTable_iff {t : TypeModel} {type : String} :
    s.layout t = .error (.noTable type) ↔ type = t.name ∧ t.isMapped = false := by
  rw [isMapped_eq_false_iff, ← @ancestorLevels_eq_nil_iff [], ← splitLast?_eq_none_iff]
  unfold layout
  dsimp only
  cases splitLast? (ancestorLevels [] t.lineage).1 with
  | none => simp [eq_comm]
  | some parts =>
    refine iff_of_false ?_ fun h => nomatch h.2
    intro h
    have listed : ∀ {base}, s.descendants base ≠ .error (.noTable type) := fun failed =>
      kind_of_descendants failed rfl
    dsimp only at h
    split at h
    next base _ =>
      unfold discriminatedLayout at h
      dsimp only at h
      split at h
      · rcases error_bind.mp h with group | ⟨_, -, rest⟩
        · exact listed group
        · split at rest
          · cases rest
          · rcases error_bind.mp rest with below | ⟨_, _, done⟩
            · exact listed below
            · cases done
      · rcases error_bind.mp h with below | ⟨_, _, done⟩
        · exact listed below
        · cases done
    next =>
      rcases error_bind.mp h with below | ⟨below, -, rest⟩
      · exact listed below
      · rcases error_bind.mp rest with placed | ⟨_, _, done⟩
        · obtain ⟨sub, -, failed⟩ := error_of_mapM placed
          unfold subclassLevel at failed
          split at failed <;> cases failed
        · cases done

/-! ## Main result -/

/-- **A field that names a type is a relation just if the described type is mapped.** Otherwise it is an
embedded value object, and there is one of it. The search for a table among the declarations, by which
fields are classified, agrees with what the layers of the described type say: the type is mapped if it or
a type that it extends has a table, declared as such or kept for compatibility. So a type is without a
layout for want of a table just if relations do not lead to it. -/
theorem classified_as_mapped {t target : TypeModel} {f : FieldModel} {name : String}
    (described : s.Describes t) (hf : f ∈ t.allFields) (names : f.type = .named name)
    (leads : s.describe name = .ok target) (plain : target.isEnum = false) :
    (f.cls = .relation name ↔ target.isMapped = true) ∧
    (f.cls = .embedded name ↔ target.isMapped = false) ∧
    (f.cls = .embedded name → f.cardinality.isMany = false) ∧
    (∃ decl, s.find? name = some decl ∧ hasTable s s.size decl = target.isMapped ∧
      (target.isMapped = true ↔ ∃ steps d, s.ancestorAt decl steps = some d ∧
        (d.table.isSome = true ∨ d.compatTable.isSome = true))) ∧
    (target.isMapped = false → s.layout target = .error (.noTable target.name)) ∧
    (f.cls = .relation name → ∀ type, s.layout target ≠ .error (.noTable type)) := by
  obtain ⟨decl, found, enum⟩ := declaration_of_describe leads
  have agrees : hasTable s s.size decl = target.isMapped :=
    hasTable_of_describeFrom leads found (Nat.le_of_lt (length_ancestors_lt leads))
  obtain ⟨decl', found', classes⟩ := class_of_type (described.declares hf) names
  cases found.symm.trans found'
  rw [← enum, plain, agrees] at classes
  have relation_iff : f.cls = .relation name ↔ target.isMapped = true := by
    rcases classes with ⟨enumerated, -⟩ | ⟨-, mapped, cls⟩ | ⟨-, bare, -, cls⟩
    · cases enumerated
    · exact iff_of_true cls mapped
    · exact iff_of_false (by rw [cls]; exact FieldClass.noConfusion) (Bool.eq_false_iff.mp bare)
  have embedded_iff : f.cls = .embedded name ↔ target.isMapped = false := by
    rcases classes with ⟨enumerated, -⟩ | ⟨-, mapped, cls⟩ | ⟨-, bare, -, cls⟩
    · cases enumerated
    · refine iff_of_false (by rw [cls]; exact FieldClass.noConfusion) fun bare => ?_
      cases mapped.symm.trans bare
    · exact iff_of_true cls bare
  refine ⟨relation_iff, embedded_iff, fun cls => ?_, ⟨decl, found, agrees, isMapped_iff leads found⟩,
    fun bare => layout_eq_noTable_iff.mpr ⟨rfl, bare⟩, fun cls type failed => ?_⟩
  · rcases classes with ⟨enumerated, -⟩ | ⟨-, mapped, -⟩ | ⟨-, -, single, -⟩
    · cases enumerated
    · cases mapped.symm.trans (embedded_iff.mp cls)
    · exact single
  · cases (relation_iff.mp cls).symm.trans (layout_eq_noTable_iff.mp failed).2

/-- A folder holds letters, whose table is that of papers and is kept for compatibility, and a stamp. -/
def cabinet : Schema where
  sources := [⟨.runtime, [
    { name := "Paper", compatTable := some ⟨none, "paper"⟩,
      fields := [{ name := "id", type := .value .int, attrs := { id := some true } }] },
    { name := "Letter", superclass := some "Paper" },
    { name := "Stamp", embeddable := true, fields := [{ name := "price", type := .value .int }] },
    { name := "Folder", table := some ⟨none, "folder"⟩,
      fields := [{ name := "letters", type := .named "Letter", cardinality := .list },
        { name := "stamp", type := .named "Stamp" }] }]⟩]

theorem classified_as_mapped_cabinet : ∃ t letter stamp f g, cabinet.describe "Folder" = .ok t ∧
    cabinet.describe "Letter" = .ok letter ∧ cabinet.describe "Stamp" = .ok stamp ∧
    f ∈ t.allFields ∧ f.type = .named "Letter" ∧ letter.table = none ∧ f.cls = .relation "Letter" ∧
    (∀ type, cabinet.layout letter ≠ .error (.noTable type)) ∧
    g ∈ t.allFields ∧ g.type = .named "Stamp" ∧ g.cls = .embedded "Stamp" ∧
    g.cardinality.isMany = false ∧ cabinet.layout stamp = .error (.noTable stamp.name) := by
  obtain ⟨⟨t, letter, stamp⟩, made, shown⟩ := ok_of_map
    (x := do
      let t ← cabinet.describe "Folder"
      let letter ← cabinet.describe "Letter"
      let stamp ← cabinet.describe "Stamp"
      return (t, letter, stamp))
    (f := fun p => (p.1.allFields.map (·.type), (p.2.1.isEnum, p.2.1.table, p.2.1.isMapped),
      (p.2.2.isEnum, p.2.2.isMapped)))
    (b := ([.named "Letter", .named "Stamp"], (false, none, true), (false, false)))
    (by decide)
  obtain ⟨_, described, more⟩ := ok_bind.mp made
  obtain ⟨_, toLetter, more⟩ := ok_bind.mp more
  obtain ⟨_, toStamp, same⟩ := ok_bind.mp more
  cases same
  simp only [Prod.mk.injEq] at shown
  obtain ⟨types, ⟨plain, bare, mapped⟩, plain', unmapped⟩ := shown
  have field : ∀ type ∈ [FieldType.named "Letter", .named "Stamp"], ∃ f ∈ t.allFields, f.type = type :=
    fun type mem => List.mem_map.mp (types ▸ mem)
  obtain ⟨f, hf, names⟩ := field (.named "Letter") (by decide)
  obtain ⟨g, hg, names'⟩ := field (.named "Stamp") (by decide)
  obtain ⟨relation, -, -, -, -, placed⟩ :=
    classified_as_mapped ⟨_, described⟩ hf names toLetter plain
  obtain ⟨-, embedded, single, -, missing, -⟩ :=
    classified_as_mapped ⟨_, described⟩ hg names' toStamp plain'
  exact ⟨t, letter, stamp, f, g, described, toLetter, toStamp, hf, names, bare, relation.mpr mapped,
    placed (relation.mpr mapped), hg, names', embedded.mpr unmapped, single (embedded.mpr unmapped),
    missing unmapped⟩

end Orm.Schema
