import Mathlib.Data.List.Pairwise
import Orm.Proofs.Assembly.Conformity
import Orm.Proofs.Assembly.Levels
import Orm.Proofs.Plan.SelectList

/-!
# `Proofs.Assembly.Uniformity` — one field is walked in one way

A type may list a subclass twice, and then the fields of the subclass are walked twice when its hierarchy
has one table. So an entity may have several members of one field. This makes no difference: a field lies
in one level, so it is walked in one scope, and a scope and a field tell which columns are read and under
which labels. Members of one field read the same.

## Contents
- **Derivations.** `Derives.cells_eq`: what is read follows from the task.
- **Uniform members.** `Members.Uniform`, `Task.Walks`, `Derives.uniform`.
- **Levels.** `PlacedLevel.eq_of_mem`, `Entity.Walked.uniform`.
-/

namespace Orm

open Schema

namespace Plan

/-! ## Derivations -/

/-- **What is read follows from the task**, whatever the draft was. -/
theorem Derives.cells_eq {s : Schema} {t : Task} {d d' : Draft} {m : Members} {asked : List SelectItem}
    (h : Derives s t d m asked d') {b b' : Draft} {n : Members} {more : List SelectItem}
    (h' : Derives s t b n more b') (chain : List FieldModel) : m.cells chain = n.cells chain := by
  -- the class of a field tells the rule that it is walked by
  induction h generalizing b b' n more chain with
  | key single | column single | computed single =>
    rw [h'.of_single single]
  | @embedded _ f _ _ _ _ _ _ cls describes _ _ ih =>
    obtain ⟨inner, rfl, walk⟩ := h'.of_embedded cls describes
    exact congrArg (· ++ _) (ih walk (chain ++ [f]))
  | @relation _ f _ _ _ _ _ _ _ _ _ cls =>
    have relation : f.isRelation = true := by simp [FieldModel.isRelation, cls]
    obtain ⟨child, inner, rfl⟩ := h'.of_relation relation
    rfl
  | done =>
    cases h'
    rfl
  | skip transient _ ih =>
    cases h' with
    | skip _ walk => exact ih walk chain
    | next stored =>
      rw [stored] at transient
      cases transient
  | next stored _ _ first rest =>
    cases h' with
    | skip transient =>
      rw [stored] at transient
      cases transient
    | next _ first' rest' =>
      rw [Members.cells_append, Members.cells_append, first first' chain, rest rest' chain]
  | bottom =>
    cases h'
    rfl
  | level _ _ first rest =>
    cases h' with
    | level first' rest' =>
      rw [Members.cells_append, Members.cells_append, first first' chain, rest rest' chain]
  | entity _ _ _ _ ih =>
    cases h' with
    | entity _ _ walk => exact ih walk chain

/-! ## Uniform members -/

/-- Members of one field read the same, here and in all value objects. -/
inductive Members.Uniform : Members → Prop where
  | intro {m : Members} (columns : ∀ c ∈ m.columns, ∀ c' ∈ m.columns, c.1 = c'.1 → c.2 = c'.2)
      (embeddeds : ∀ v ∈ m.embeddeds, ∀ v' ∈ m.embeddeds, v.1 = v'.1 →
        v.2.2.cells [] = v'.2.2.cells [])
      (inside : ∀ v ∈ m.embeddeds, v.2.2.Uniform) : Uniform m

/-- A part of the walk walks a field in a scope. -/
def Task.Walks (scope : Scope) (f : FieldModel) : Task → Prop
  | .field scope' g => scope' = scope ∧ g = f
  | .fields scope' fs => scope' = scope ∧ f ∈ fs
  | .levels place ps => ∃ p ∈ ps, place.scope p = scope ∧ f ∈ p.level.fields
  | .entity path base walking layout _ => ∃ p ∈ placedLevels path layout,
    (Place.mk path base layout.declared.idFields (walking ++ [layout.declared.name])).scope p = scope ∧
      f ∈ p.level.fields

section

variable {s : Schema} {t : Task} {d d' : Draft} {m : Members} {asked : List SelectItem}

/-- A column is read under the label that the scope of its field gives it. -/
theorem Derives.walks_of_column (h : Derives s t d m asked d') {c : FieldModel × String}
    (hc : c ∈ m.columns) : ∃ scope, t.Walks scope c.1 ∧ c.2 = scope.label c.1 := by
  induction h with
  | key | column | computed =>
    obtain rfl := List.mem_singleton.mp hc
    exact ⟨_, ⟨rfl, rfl⟩, rfl⟩
  | embedded | relation | done | bottom => cases hc
  | skip _ _ ih =>
    obtain ⟨scope, ⟨rfl, mem⟩, label⟩ := ih hc
    exact ⟨_, ⟨rfl, List.mem_cons_of_mem _ mem⟩, label⟩
  | next _ _ _ first rest =>
    rw [Members.columns_append] at hc
    rcases List.mem_append.mp hc with here | later
    · obtain ⟨scope, ⟨rfl, rfl⟩, label⟩ := first here
      exact ⟨_, ⟨rfl, List.mem_cons_self⟩, label⟩
    · obtain ⟨scope, ⟨rfl, mem⟩, label⟩ := rest later
      exact ⟨_, ⟨rfl, List.mem_cons_of_mem _ mem⟩, label⟩
  | level _ _ first rest =>
    rw [Members.columns_append] at hc
    rcases List.mem_append.mp hc with here | later
    · obtain ⟨scope, ⟨rfl, mem⟩, label⟩ := first here
      exact ⟨_, ⟨_, List.mem_cons_self, rfl, mem⟩, label⟩
    · obtain ⟨scope, ⟨p, hp, at_⟩, label⟩ := rest later
      exact ⟨scope, ⟨p, List.mem_cons_of_mem _ hp, at_⟩, label⟩
  | entity _ _ _ _ ih => exact ih hc

/-- The members of a value object are walked in the scope inside that of its field. -/
theorem Derives.walks_of_embedded (h : Derives s t d m asked d') {v : FieldModel × TypeModel × Members}
    (hv : v ∈ m.embeddeds) : ∃ scope, t.Walks scope v.1 ∧
      (∃ name, v.1.cls = .embedded name ∧ s.describe name = .ok v.2.1) ∧
      ∃ b more b', Derives s (.fields (scope.inside v.1 v.2.1) v.2.1.allFields) b v.2.2 more b' := by
  induction h with
  | key | column | computed | relation | done | bottom => cases hv
  | embedded cls describes _ walk =>
    obtain rfl := List.mem_singleton.mp hv
    exact ⟨_, ⟨rfl, rfl⟩, ⟨_, cls, describes⟩, _, _, _, walk⟩
  | skip _ _ ih =>
    obtain ⟨scope, ⟨rfl, mem⟩, walked⟩ := ih hv
    exact ⟨_, ⟨rfl, List.mem_cons_of_mem _ mem⟩, walked⟩
  | next _ _ _ first rest =>
    rw [Members.embeddeds_append] at hv
    rcases List.mem_append.mp hv with here | later
    · obtain ⟨scope, ⟨rfl, rfl⟩, walked⟩ := first here
      exact ⟨_, ⟨rfl, List.mem_cons_self⟩, walked⟩
    · obtain ⟨scope, ⟨rfl, mem⟩, walked⟩ := rest later
      exact ⟨_, ⟨rfl, List.mem_cons_of_mem _ mem⟩, walked⟩
  | level _ _ first rest =>
    rw [Members.embeddeds_append] at hv
    rcases List.mem_append.mp hv with here | later
    · obtain ⟨scope, ⟨rfl, mem⟩, walked⟩ := first here
      exact ⟨_, ⟨_, List.mem_cons_self, rfl, mem⟩, walked⟩
    · obtain ⟨scope, ⟨p, hp, at_⟩, walked⟩ := rest later
      exact ⟨scope, ⟨p, List.mem_cons_of_mem _ hp, at_⟩, walked⟩
  | entity _ _ _ _ ih => exact ih hv

/-- **Members are uniform if each field is walked in one scope**, and the value objects are. -/
theorem Derives.uniform (h : Derives s t d m asked d')
    (once : ∀ {scope scope' : Scope} {f : FieldModel}, t.Walks scope f → t.Walks scope' f →
      scope = scope') (inside : ∀ v ∈ m.embeddeds, v.2.2.Uniform) : m.Uniform := by
  refine .intro (fun c hc c' hc' same => ?_) (fun v hv v' hv' same => ?_) inside
  · obtain ⟨scope, walks, label⟩ := h.walks_of_column hc
    obtain ⟨scope', walks', label'⟩ := h.walks_of_column hc'
    rw [label, label', same, once walks (same ▸ walks')]
  · obtain ⟨scope, walks, ⟨name, cls, describes⟩, _, _, _, walk⟩ := h.walks_of_embedded hv
    obtain ⟨scope', walks', ⟨name', cls', describes'⟩, _, _, _, walk'⟩ := h.walks_of_embedded hv'
    obtain rfl := once walks (same ▸ walks')
    rw [← same, cls] at cls'
    cases cls'
    have types : v.2.1 = v'.2.1 := Except.ok.inj (describes.symm.trans describes')
    rw [← same, ← types] at walk'
    exact walk.cells_eq walk' []

/-- The members of all value objects are uniform. -/
theorem Derives.uniform_inside (h : Derives s t d m asked d') : ∀ v ∈ m.embeddeds, v.2.2.Uniform := by
  induction h with
  | key | column | computed | relation | done | bottom => exact fun v hv => nomatch hv
  | embedded _ _ _ walk ih =>
    intro v hv
    obtain rfl := List.mem_singleton.mp hv
    exact walk.uniform (fun walks walks' => walks.1.symm.trans walks'.1) ih
  | skip _ _ ih => exact ih
  | next _ _ _ first rest | level _ _ first rest =>
    intro v hv
    rw [Members.embeddeds_append] at hv
    exact (List.mem_append.mp hv).elim (first v) (rest v)
  | entity _ _ _ _ ih => exact ih

end

end Plan

/-! ## Levels -/

section

variable {s : Schema} {base t : TypeModel} {f : FieldModel}

/-- A descendant has more ancestors than its base. -/
theorem Schema.length_lt_of_mem_descendants (described : s.Describes base) {depth : Nat}
    {below : List TypeModel} (h : descendantsBy (describe s) depth base = .ok below) (ht : t ∈ below) :
    base.ancestors.length < t.ancestors.length := by
  induction depth generalizing base below with
  | zero =>
    cases h
    cases ht
  | succ depth ih =>
    obtain ⟨subs, listed, sub, hsub, deeper, descend, -, found⟩ := exists_of_mem_descendants h ht
    obtain ⟨sub_described, longer⟩ := length_ancestors_of_subclass described listed hsub
    rcases found with rfl | inside
    · omega
    · exact Nat.lt_of_le_of_lt (by omega) (ih sub_described descend inside)

/-- What a type has, none of its descendants declares. -/
theorem Schema.not_mem_fields_of_descendant (described : s.Describes base) {below : List TypeModel}
    (h : s.descendants base = .ok below) (ht : t ∈ below) (own : f ∈ base.allFields) : f ∉ t.fields := by
  intro lower
  have described_t := describes_of_mem_descendants h ht
  obtain ⟨l, hl, inLayer⟩ := mem_allFields.mp own
  have layer : l ∈ base.lineage.map TypeModel.toTypeLayer := by
    rw [TypeModel.map_lineage]
    exact List.mem_reverse.mpr hl
  obtain ⟨u, hu, rfl⟩ := List.mem_map.mp layer
  -- both own the field, so they have one name
  have described_u := described.of_mem_lineage hu
  have owner_u := (described_u.hasLayer _ List.mem_cons_self).owner inLayer
  have owner_t := (described_t.hasLayer _ List.mem_cons_self).owner lower
  have self := described_t.self
  rw [← owner_t, owner_u, described_u.self] at self
  obtain rfl := Except.ok.inj self
  have longer := length_lt_of_mem_descendants described h ht
  rcases TypeModel.eq_or_lt_of_mem_lineage hu with rfl | shorter
  · exact Nat.lt_irrefl _ longer
  · exact Nat.lt_asymm longer shorter

/-- Where a field is found in lists without repetitions, it is found in one of them. -/
theorem eq_of_mem_flatMap {α β : Type} {l : List α} {g : α → List β} (distinct : (l.flatMap g).Nodup)
    {a b : α} (ha : a ∈ l) (hb : b ∈ l) {x : β} (xa : x ∈ g a) (xb : x ∈ g b) : a = b := by
  by_contra other
  have apart := (List.nodup_flatMap.mp distinct).2
  have symmetric : Std.Symm (Function.onFun List.Disjoint g) := ⟨fun _ _ h _ later first => h first later⟩
  exact apart.forall ha hb other xa xb

/-- **A field lies in one level of an entity.** -/
theorem Plan.PlacedLevel.eq_of_mem {layout : Layout} {path : String} (described : s.Describes base)
    (lays : s.layout base = .ok layout) (once : base.allFields.Nodup) {p q : PlacedLevel}
    (hp : p ∈ placedLevels path layout) (hq : q ∈ placedLevels path layout)
    (fp : f ∈ p.level.fields) (fq : f ∈ q.level.fields) : p = q := by
  cases laid_of_layout lays with
  | discriminated => rw [List.mem_singleton.mp hp, List.mem_singleton.mp hq]
  | @vertical below above levels main _ descend placed spread =>
    let ancestral := above.map (placedBeside path .ancestor) ++ [⟨main, .ancestor, path⟩]
    have split : placedLevels path ⟨base, above, main, levels, none⟩ =
        ancestral ++ levels.map (placedBeside path .subclass) := List.append_cons ..
    have fields : ancestral.flatMap (·.level.fields) = (above ++ [main]).flatMap (·.fields) := by
      simp [ancestral, List.flatMap_map, placedBeside]
    rw [spread.fields, ← allFields_eq_lineage] at fields
    have own : ∀ {p : PlacedLevel}, p ∈ ancestral → f ∈ p.level.fields → f ∈ base.allFields :=
      fun hp fp => fields ▸ List.mem_flatMap.mpr ⟨_, hp, fp⟩
    have lower : ∀ {p : PlacedLevel}, p ∈ levels.map (placedBeside path .subclass) →
        f ∈ p.level.fields → ∃ sub ∈ below, f ∈ sub.fields ∧ subclassLevel base sub = .ok p.level ∧
          p = placedBeside path .subclass p.level := by
      intro p hp fp
      obtain ⟨level, hl, rfl⟩ := List.mem_map.mp hp
      obtain ⟨sub, hsub, made⟩ := mem_of_mapM placed hl
      exact ⟨sub, hsub, (of_subclassLevel made).2 ▸ fp, made, rfl⟩
    rw [split] at hp hq
    rcases List.mem_append.mp hp with above_p | below_p
    · rcases List.mem_append.mp hq with above_q | below_q
      · exact eq_of_mem_flatMap (fields ▸ once) above_p above_q fp fq
      · obtain ⟨sub, hsub, inSub, -⟩ := lower below_q fq
        exact absurd inSub (not_mem_fields_of_descendant described descend hsub (own above_p fp))
    · obtain ⟨sub, hsub, inSub, made, whole⟩ := lower below_p fp
      rcases List.mem_append.mp hq with above_q | below_q
      · exact absurd inSub (not_mem_fields_of_descendant described descend hsub (own above_q fq))
      · obtain ⟨sub', hsub', inSub', made', whole'⟩ := lower below_q fq
        -- both own the field, so they are one type, and a type has one level
        have described_sub := describes_of_mem_descendants descend hsub
        have described_sub' := describes_of_mem_descendants descend hsub'
        have owner := (described_sub.hasLayer _ List.mem_cons_self).owner inSub
        have owner' := (described_sub'.hasLayer _ List.mem_cons_self).owner inSub'
        have self := described_sub.self
        rw [← owner, owner', described_sub'.self] at self
        obtain rfl := Except.ok.inj self
        rw [whole, whole', Except.ok.inj (made.symm.trans made')]

/-- **The members of an entity are uniform**, if its declared type has no field twice. -/
theorem Plan.Entity.Walked.uniform {e : Entity} (walked : e.Walked s)
    (once : e.head.declared.allFields.Nodup) : e.members.Uniform := by
  obtain @⟨name, target, layout, path, base, walking, attachment, d, d', members, asked, describes, lays,
    walk⟩ := walked
  obtain ⟨-, declared⟩ := sound_of_layout ⟨name, describes⟩ lays
  have once : target.allFields.Nodup := declared ▸ once
  refine walk.uniform ?_ walk.uniform_inside
  rintro scope scope' f ⟨p, hp, rfl, fp⟩ ⟨q, hq, rfl, fq⟩
  rw [PlacedLevel.eq_of_mem ⟨name, describes⟩ lays once hp hq fp fq]

end

end Orm
