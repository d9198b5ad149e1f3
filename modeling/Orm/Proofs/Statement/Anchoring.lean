import Orm.Proofs.Plan.Sites
import Orm.Proofs.Sql.Rebasing
import Orm.Proofs.Statement.Parameters

/-!
# `Proofs.Statement.Anchoring` — texts of a schema in a statement

A schema states texts in which `this` and other short names stand for tables. When such a text is
taken into a plan, the path of the table is written in their place, and the reference that results is
looked up when the statement is rendered. Both times the reader decides what a reference is. The
second time it reads paths that were made of the names of tables and fields, and these may hold any
character.

A reference survives its anchoring exactly if the path that is written into it consists of names.
Then it is replaced by what it stands for, or rendering fails.

## Contents
- **Lookup.** `exists_blamed`, `resolveText_or`.
- **Stated texts.** `Schema.States`, `Anchored`, `Draft.texts`.
- **Walks.** `Draft.Anchors`, `Derives.anchored`.
- **The theorem.** `Plan.anchored_reads_iff`.
-/

namespace Orm

open Text Sql Plan Schema

/-! ## Lookup -/

section

variable {text : String} {ls : List Lexeme}

/-- If not all references stand for something, the first that does not is to blame. -/
theorem exists_blamed {p : Plan} (d : Dialect)
    (unknown : ¬ ∀ n, .reference n ∈ ls → (p.resolve? (String.ofList n)).isSome) :
    ∃ n, .reference n ∈ ls ∧ p.resolve? (String.ofList n) = none ∧
      substituteLexemes (p.referenceText d) ls = .error (.unresolvedReference (String.ofList n)) := by
  induction ls with
  | nil => exact absurd (fun n hn => nomatch hn) unknown
  | cons l rest ih =>
    -- What stands before the first reference that is not known is written.
    have later : (∀ n, l = .reference n → (p.resolve? (String.ofList n)).isSome) →
        ∃ n, .reference n ∈ rest ∧ p.resolve? (String.ofList n) = none ∧
          substituteLexemes (p.referenceText d) rest =
            .error (.unresolvedReference (String.ofList n)) := by
      intro here
      apply ih
      intro all
      apply unknown
      intro n hn
      rcases List.mem_cons.mp hn with same | inRest
      · exact here n same.symm
      · exact all n inRest
    cases l with
    | reference n =>
      cases found : p.resolve? (String.ofList n) with
      | none =>
        refine ⟨n, List.mem_cons_self, found, ?_⟩
        simp [substituteLexemes, referenceText, found]
        rfl
      | some t =>
        obtain ⟨m, hm, absent, failed⟩ := later fun n' same => by
          cases same
          rw [found]
          rfl
        refine ⟨m, List.mem_cons_of_mem _ hm, absent, ?_⟩
        simp [substituteLexemes, referenceText, found, failed]
        rfl
    | _ =>
      obtain ⟨m, hm, absent, failed⟩ := later fun n' same => by cases same
      refine ⟨m, List.mem_cons_of_mem _ hm, absent, ?_⟩
      simp [substituteLexemes, failed]
      rfl

/-- A text is resolved or the first of its references that stands for nothing is to blame. -/
theorem resolveText_or {p : Plan} {d : Dialect} (h : lexemes text.toList = .ok ls) :
    (∀ n, .reference n ∈ ls → (p.resolve? (String.ofList n)).isSome) ∧
        p.resolveText d text = .ok (String.ofList (replacedText (p.targetChars d) ls)) ∨
      ∃ n, .reference n ∈ ls ∧ p.resolve? (String.ofList n) = none ∧
        p.resolveText d text = .error (.unresolvedReference (String.ofList n)) := by
  by_cases known : ∀ n, .reference n ∈ ls → (p.resolve? (String.ofList n)).isSome
  · exact .inl ⟨known, resolveText_eq h known⟩
  obtain ⟨n, hn, unknown, failed⟩ := exists_blamed d known
  refine .inr ⟨n, hn, unknown, ?_⟩
  unfold resolveText substituteReferences
  rw [h]
  show (substituteLexemes (p.referenceText d) ls >>= fun chars => pure (String.ofList chars)) = _
  rw [failed]
  rfl

end

/-! ## Stated texts -/

/-- A text that a schema states, with the short names that stand for tables in it. -/
inductive Schema.States (s : Schema) : List String → String → Prop where
  /-- What a field is read from. -/
  | sql {f : FieldModel} {text : String} (declared : s.Declares f) (has : f.sql = some text) :
      States s ["this"] text
  /-- What a relation is joined on. -/
  | condition {f : FieldModel} {text : String} (declared : s.Declares f)
      (has : f.joinCondition = some text) : States s ["this", "linktable", f.name] text
  /-- A join of a type. -/
  | join {l : TypeLayer} {text : String} (layer : s.HasLayer l) (has : text ∈ l.joins) :
      States s ["this"] text
  /-- A grouping term of a type. -/
  | group {l : TypeLayer} {text : String} (layer : s.HasLayer l) (has : text ∈ l.groupBy) :
      States s ["this"] text

/-- A fragment is a stated text with `this` standing for one of some tables. -/
def Anchored (s : Schema) (paths : List String) (f : Fragment) : Prop :=
  ∃ heads text, s.States (heads.map (·.1)) text ∧ rebase heads text = .ok f.text ∧
    ∃ path ∈ paths, heads.lookup "this" = some path

theorem Anchored.mono {s : Schema} {paths more : List String} {f : Fragment}
    (h : Anchored s paths f) (sub : paths ⊆ more) : Anchored s more f := by
  obtain ⟨heads, text, stated, made, path, hp, this⟩ := h
  exact ⟨heads, text, stated, made, path, sub hp, this⟩

/-- The raw texts of a draft. -/
def Plan.Draft.texts (d : Draft) : List Fragment :=
  d.select.flatMap (·.expression.texts) ++ d.aliases.flatMap (·.texts) ++
    d.groupBy.flatMap (·.texts) ++ d.lateJoins.map .plain ++ d.lateGroups.map .plain

namespace Plan.Draft

variable {d : Draft} {f : Fragment}

theorem mem_texts : f ∈ d.texts ↔ (∃ item ∈ d.select, f ∈ item.expression.texts) ∨
    (∃ a ∈ d.aliases, f ∈ a.texts) ∨ (∃ e ∈ d.groupBy, f ∈ e.texts) ∨
      (∃ text ∈ d.lateJoins, f = .plain text) ∨ ∃ text ∈ d.lateGroups, f = .plain text := by
  simp only [texts, List.mem_append, List.mem_flatMap, List.mem_map, or_assoc, eq_comm]

theorem mem_texts_selecting {e : Expression} {label : String}
    (h : f ∈ (d.selecting e label).texts) : f ∈ d.texts ∨ f ∈ e.texts := by
  rw [mem_texts] at h ⊢
  rcases h with ⟨item, hi, hf⟩ | h
  · unfold selecting offer at hi
    split at hi
    · exact .inl (.inl ⟨item, hi, hf⟩)
    · rcases List.mem_append.mp hi with old | new
      · exact .inl (.inl ⟨item, old, hf⟩)
      · cases List.mem_singleton.mp new
        exact .inr hf
  · exact .inl (.inr h)

theorem mem_texts_grouping {wanted : Bool} {e : Expression}
    (h : f ∈ (d.grouping wanted e).texts) : f ∈ d.texts ∨ f ∈ e.texts := by
  rw [mem_texts] at h ⊢
  rcases h with select | aliases | ⟨e', he, hf⟩ | late
  · exact .inl (.inl select)
  · exact .inl (.inr (.inl aliases))
  · simp only [grouping] at he
    split at he
    · rcases List.mem_append.mp he with old | new
      · exact .inl (.inr (.inr (.inl ⟨e', old, hf⟩)))
      · cases List.mem_singleton.mp new
        exact .inr hf
    · exact .inl (.inr (.inr (.inl ⟨e', he, hf⟩)))
  · exact .inl (.inr (.inr (.inr late)))

theorem texts_registering (path fieldPath column : String) :
    (d.registering path fieldPath column).texts = d.texts := by
  have same : ∀ a : Alias, (if a.path == path then a.withColumn fieldPath column else a).texts =
      a.texts := by
    intro a
    unfold Alias.withColumn
    split_ifs <;> rfl
  simp only [texts, registering, List.flatMap_map, same]

theorem mem_texts_withAliases {as : List Alias} (h : f ∈ (d.withAliases as).texts) :
    f ∈ d.texts ∨ ∃ a ∈ as, f ∈ a.texts := by
  rw [mem_texts] at h ⊢
  rcases h with select | ⟨a, ha, hf⟩ | rest
  · exact .inl (.inl select)
  · rcases List.mem_append.mp ha with old | new
    · exact .inl (.inr (.inl ⟨a, old, hf⟩))
    · exact .inr ⟨a, new, hf⟩
  · exact .inl (.inr (.inr rest))

theorem mem_texts_withKeys {path : String} {ids : List FieldModel}
    (h : f ∈ (d.withKeys path ids).texts) : f ∈ d.texts := by
  induction ids generalizing d with
  | nil => exact h
  | cons id rest ih =>
    have later := ih h
    rw [texts_registering] at later
    rcases mem_texts_selecting later with old | own
    · exact old
    · cases own

theorem mem_texts_opened {path : String} {layout : Layout} {attachment : Option Attachment}
    (h : f ∈ (d.opened path layout attachment).texts) :
    f ∈ d.texts ∨ ∃ at_, attachment = some at_ ∧ f ∈ at_.join.condition.texts := by
  have discriminating : f ∈ ((d.limiting path layout attachment).withAliases
      (entityAliases path layout attachment)).texts := by
    revert h
    show f ∈ (Draft.discriminating _ path layout).texts → _
    generalize (d.limiting path layout attachment).withAliases
      (entityAliases path layout attachment) = d₁
    intro h
    cases dis : layout.discrimination with
    | none => simpa [Draft.discriminating, dis] using h
    | some dis' =>
      have same : d₁.discriminating path layout =
          d₁.selecting (.column ⟨path, dis'.column⟩) (path ++ "." ++ dis'.column) := by
        simp [Draft.discriminating, Draft.selecting, dis]
      rw [same] at h
      rcases mem_texts_selecting h with old | own
      · exact old
      · cases own
  rcases mem_texts_withAliases discriminating with old | ⟨a, ha, hf⟩
  · exact .inl old
  rcases List.mem_cons.mp ha with rfl | beside
  · cases attachment with
    | none => cases hf
    | some at_ => exact .inr ⟨at_, rfl, by simpa [Alias.texts, entityAlias] using hf⟩
  · obtain ⟨p, -, rfl⟩ := List.mem_map.mp beside
    cases hf

end Plan.Draft

namespace Plan

/-- The texts of types are anchored at the entity. -/
theorem mem_texts_late {path : String} {layers : List TypeLayer} {d d' : Draft} {u : Unit}
    (h : Yields (addLate path layers) d u d') {f : Fragment} (hf : f ∈ d'.texts) :
    f ∈ d.texts ∨ ∃ l ∈ layers, ∃ stated, (stated ∈ l.joins ∨ stated ∈ l.groupBy) ∧
      rebase [("this", path)] stated = .ok f.text := by
  induction layers generalizing d with
  | nil =>
    obtain ⟨-, rfl⟩ := yields_pure.mp h
    exact .inl hf
  | cons l rest ih =>
    obtain ⟨joins, groups, joined, grouped, run⟩ := yields_addLate_cons.mp h
    rcases ih run with here | ⟨l', hl', stated⟩
    · rw [Draft.mem_texts] at here
      rcases here with select | aliases | groupBy | ⟨text, ht, rfl⟩ | ⟨text, ht, rfl⟩
      · exact .inl (Draft.mem_texts.mpr (.inl select))
      · exact .inl (Draft.mem_texts.mpr (.inr (.inl aliases)))
      · exact .inl (Draft.mem_texts.mpr (.inr (.inr (.inl groupBy))))
      · rcases List.mem_append.mp ht with old | new
        · exact .inl (Draft.mem_texts.mpr (.inr (.inr (.inr (.inl ⟨text, old, rfl⟩)))))
        · obtain ⟨stated, has, made⟩ := mem_of_mapM joined new
          exact .inr ⟨l, List.mem_cons_self, stated, .inl has, made⟩
      · rcases List.mem_append.mp ht with old | new
        · exact .inl (Draft.mem_texts.mpr (.inr (.inr (.inr (.inr ⟨text, old, rfl⟩)))))
        · obtain ⟨stated, has, made⟩ := mem_of_mapM grouped new
          exact .inr ⟨l, List.mem_cons_self, stated, .inr has, made⟩
    · exact .inr ⟨l', List.mem_cons_of_mem _ hl', stated⟩

/-- An inferred condition compares columns. -/
theorem columns_of_inferredCondition {scope : Scope} {f : FieldModel} {target : TypeModel}
    {table childPath : String} {condition : Condition}
    (h : inferredCondition scope f target table childPath = .ok condition) :
    ∃ pairs, condition = .columns pairs := by
  unfold inferredCondition at h
  split at h <;> obtain ⟨id, -, result⟩ := ok_bind.mp h <;> cases result <;> exact ⟨_, rfl⟩

/-- A condition that a relation declares is anchored at the entity. -/
theorem anchored_relationCondition {s : Schema} {scope : Scope} {f : FieldModel}
    {target : TypeModel} {table childPath : String} {condition : Condition} {paths : List String}
    (declared : s.Declares f) (taken : scope.entityPath ∈ paths)
    (h : relationCondition scope f target table childPath = .ok condition) :
    ∀ text ∈ condition.texts, Anchored s paths text := by
  unfold relationCondition at h
  split at h
  next custom has =>
    rw [map_eq_pure_bind] at h
    obtain ⟨sql, made, result⟩ := ok_bind.mp h
    cases result
    intro text ht
    obtain rfl := List.mem_singleton.mp ht
    exact ⟨[("this", scope.entityPath), ("linktable", linkPath childPath), (f.name, childPath)], custom,
      .condition declared has, made, scope.entityPath, taken, by simp⟩
  next =>
    obtain ⟨pairs, rfl⟩ := columns_of_inferredCondition h
    exact fun text ht => nomatch ht

/-- A link table is joined without text. -/
theorem mem_texts_linked {scope : Scope} {field : FieldModel} {d d' : Draft} {f : Fragment}
    (linked : Linked scope field d d') (hf : f ∈ d'.texts) : f ∈ d.texts := by
  unfold Linked at linked
  split at linked
  next =>
    obtain ⟨a, made, -, rfl⟩ := linked
    rcases Draft.mem_texts_withAliases hf with old | ⟨b, hb, own⟩
    · exact old
    · obtain rfl := List.mem_singleton.mp hb
      obtain ⟨id, -, result⟩ := ok_bind.mp made
      cases result
      cases own
  next =>
    rw [linked] at hf
    exact hf

/-! ## Walks -/

/-- All raw texts of a draft are stated ones, anchored at its tables. -/
def Draft.Anchors (s : Schema) (d : Draft) : Prop :=
  ∀ f ∈ d.texts, Anchored s d.paths f

namespace Draft.Anchors

variable {s : Schema} {d d' : Draft}

/-- A draft that has grown keeps its texts, so only new ones have to be anchored. -/
theorem extend (h : d.Anchors s) (grown : d.Grows d')
    (own : ∀ f ∈ d'.texts, f ∈ d.texts ∨ Anchored s d'.paths f) : d'.Anchors s := by
  intro f hf
  rcases own f hf with old | new
  · exact (h f old).mono grown.paths.subset
  · exact new

theorem registering (h : d.Anchors s) (path fieldPath column : String) :
    (d.registering path fieldPath column).Anchors s :=
  h.extend (grows_registering _ _ _) fun _ hf => .inl (texts_registering path fieldPath column ▸ hf)

theorem grouping (h : d.Anchors s) {e : Expression} (own : ∀ f ∈ e.texts, Anchored s d.paths f)
    (wanted : Bool) : (d.grouping wanted e).Anchors s :=
  h.extend (grows_grouping _ _) fun f hf => (mem_texts_grouping hf).imp_right (own f)

theorem selecting (h : d.Anchors s) {e : Expression} (own : ∀ f ∈ e.texts, Anchored s d.paths f)
    (label : String) : (d.selecting e label).Anchors s :=
  h.extend (grows_selecting _ _) fun f hf => (mem_texts_selecting hf).imp_right (own f)

theorem withKeys (h : d.Anchors s) (path : String) (ids : List FieldModel) :
    (d.withKeys path ids).Anchors s :=
  h.extend (grows_withKeys _ _ _) fun _ hf => .inl (mem_texts_withKeys hf)

theorem opened (h : d.Anchors s) {path : String} {layout : Layout} {attachment : Option Attachment}
    (own : ∀ at_, attachment = some at_ → ∀ f ∈ at_.join.condition.texts, Anchored s d.paths f) :
    (d.opened path layout attachment).Anchors s := by
  have grown := grows_opened (d := d) path layout attachment
  refine h.extend grown fun f hf => (mem_texts_opened hf).imp_right ?_
  rintro ⟨at_, same, new⟩
  exact (own at_ same f new).mono grown.paths.subset

/-- What the layers of a type add is anchored at its entity, whose table is there. -/
theorem late (h : d.Anchors s) {path : String} {layers : List TypeLayer} {u : Unit}
    (run : Yields (addLate path layers) d u d') (declared : ∀ l ∈ layers, s.HasLayer l)
    (taken : path ∈ d.paths) : d'.Anchors s := by
  have grown := grows_late run
  refine h.extend grown fun f hf => (mem_texts_late run hf).imp_right ?_
  rintro ⟨l, hl, text, has, made⟩
  have layer := declared l hl
  have here := grown.mem_paths taken
  rcases has with has | has
  · exact ⟨[("this", path)], text, .join layer has, made, path, here, by simp⟩
  · exact ⟨[("this", path)], text, .group layer has, made, path, here, by simp⟩

end Draft.Anchors

/-- A column has no text. -/
theorem anchored_column {s : Schema} {paths : List String} (c : ColumnRef) :
    ∀ f ∈ (Expression.column c).texts, Anchored s paths f :=
  nofun

/-- What a part of the walk counts on: its entity is there, its fields are those of the schema, and
so are the texts that it is given. -/
def Task.Stated (s : Schema) (d : Draft) : Task → Prop
  | .field scope f => scope.entityPath ∈ d.paths ∧ s.Declares f
  | .fields scope fs => scope.entityPath ∈ d.paths ∧ ∀ f ∈ fs, s.Declares f
  | .levels place ps => place.path ∈ d.paths ∧ ∀ p ∈ ps, ∀ f ∈ p.level.fields, s.Declares f
  | .entity _ _ _ layout attachment => layout.Sound s ∧ ∀ at_, attachment = some at_ →
      ∀ f ∈ at_.join.condition.texts, Anchored s d.paths f

/-- **Every part of the walk takes in stated texts only.** -/
theorem Derives.anchored {s : Schema} {t : Task} {d d' : Draft} {m : Members}
    {asked : List SelectItem} (h : Derives s t d m asked d') (stated : t.Stated s d)
    (before : d.Anchors s) : d'.Anchors s := by
  -- By induction on the walk. Only a computed field, a relation and the layers of an entity take in
  -- texts; all else keeps those that are there, and their paths only become more.
  induction h with
  | key => exact before.grouping (anchored_column _) _
  | column =>
    exact ((before.registering _ _ _).grouping (anchored_column _) _).selecting (anchored_column _) _
  | @computed scope field d sql text single hasSql anchor =>
    have own : ∀ f ∈ (Expression.raw text).texts, Anchored s d.paths f := by
      intro f hf
      obtain rfl := List.mem_singleton.mp hf
      exact ⟨[("this", scope.entityPath)], sql, .sql stated.2 hasSql, anchor, scope.entityPath,
        stated.1, by simp⟩
    exact (before.grouping own _).selecting own _
  | embedded _ describes _ walk ih =>
    exact ih ⟨stated.1, fun f hf => Describes.declares ⟨_, describes⟩ hf⟩ before
  | relation _ describes _ lays linked joined walk ih =>
    -- The condition comes from a field of the owner, whose table is still there behind a link table.
    have grown := linked.grows
    apply ih
    · refine ⟨(sound_of_layout ⟨_, describes⟩ lays).1, ?_⟩
      intro at_ same
      cases same
      exact anchored_relationCondition stated.2 (grown.mem_paths stated.1) joined
    · exact before.extend grown fun f hf => .inl (mem_texts_linked linked hf)
  | done => exact before
  | skip _ _ ih => exact ih ⟨stated.1, fun f hf => stated.2 f (List.mem_cons_of_mem _ hf)⟩ before
  | next _ first rest here later =>
    apply later
    · exact ⟨first.grows.mem_paths stated.1, fun f hf => stated.2 f (List.mem_cons_of_mem _ hf)⟩
    · exact here ⟨stated.1, stated.2 _ List.mem_cons_self⟩ before
  | bottom => exact before
  | @level place p ps d d₁ d' _ _ _ _ first rest here later =>
    have grown := Draft.grows_withKeys p.path place.ids d
    apply later
    · exact ⟨first.grows.mem_paths (grown.mem_paths stated.1),
        fun p hp => stated.2 p (List.mem_cons_of_mem _ hp)⟩
    · apply here
      · exact ⟨grown.mem_paths stated.1, stated.2 p List.mem_cons_self⟩
      · exact before.withKeys _ _
  | @entity path _ _ layout attachment d d₁ _ _ _ _ room walk late ih =>
    obtain ⟨sound, given⟩ := stated
    have taken : path ∈ (d.opened path layout attachment).paths := by
      rw [Draft.paths_opened]
      exact List.mem_append_right _ List.mem_cons_self
    have walked : d₁.Anchors s := by
      apply ih
      · exact ⟨taken, fun p hp f hf => declares_of_placed sound hp hf⟩
      · exact before.opened given
    -- What layers add comes last, when the table of the entity is long there.
    have declared : ∀ l ∈ layout.declared.layers, s.HasLayer l := fun l hl =>
      sound.declared.hasLayer l (List.mem_reverse.mp hl)
    exact walked.late late declared (walk.grows.mem_paths taken)

/-! ## The theorem -/

theorem texts_planOf (root : Entity) (d : Draft) {f : Fragment}
    (h : f ∈ (planOf root d).texts {}) : f ∈ d.texts := by
  have raws : ∀ {text}, f ∈ (Expression.raw text).texts → f = .plain text := List.mem_singleton.mp
  simp only [Plan.texts, planOf, List.mem_append, List.mem_flatMap, List.mem_map,
    List.not_mem_nil, or_false] at h
  rw [Draft.mem_texts]
  rcases h with ((select | aliases) | ⟨text, ht, rfl⟩) | ⟨e, (own | ⟨text, ht, rfl⟩), hf⟩
  · exact .inl select
  · exact .inr (.inl aliases)
  · exact .inr (.inr (.inr (.inl ⟨text, ht, rfl⟩)))
  · exact .inr (.inr (.inl ⟨e, own, hf⟩))
  · exact .inr (.inr (.inr (.inr ⟨text, ht, raws hf⟩)))

/-- Every raw text of a plan is a stated one, anchored at one of its tables. -/
theorem anchored_of_build {s : Schema} {name : String} {p : Plan}
    (built : Plan.build s name = .ok p) :
    ∀ f ∈ p.texts {}, Anchored s (p.aliases.map (·.path)) f := by
  obtain ⟨asked, ⟨declared, layout, members, d, described, laid, derived, rfl⟩⟩ :=
    derivation_of_build built
  intro f hf
  have sound := (sound_of_layout ⟨_, described⟩ laid).1
  have stated : Task.Stated s {} (.entity layout.main.table.name "" [] layout none) := by
    refine ⟨sound, fun at_ none => ?_⟩
    cases none
  have empty : ({} : Draft).Anchors s := nofun
  exact derived.anchored stated empty f (texts_planOf _ _ hf)

end Plan

/-- **A stated text keeps its references exactly if they are anchored at dotted names.** Every raw
text of a plan is a text that the schema states, in which `this` stands for a table of the plan. It is
read with the references of the stated text, anchored, if and only if all of these are paths. Then
each of them is replaced by the quoted table or column that it stands for, or resolving fails with
one that stands for nothing. -/
theorem Plan.anchored_reads_iff {s : Schema} {name : String} {p : Plan}
    (built : Plan.build s name = .ok p) {f : Fragment} (hf : f ∈ p.texts {}) :
    ∃ heads text ls, s.States (heads.map (·.1)) text ∧
      (∃ path ∈ p.aliases.map (·.path), heads.lookup "this" = some path) ∧
      rebase heads text = .ok f.text ∧ lexemes text.toList = .ok ls ∧
      (lexemes f.text.toList = .ok (renamed heads ls) ↔
        ∀ n, .reference n ∈ ls → isPath (anchoredName heads n)) ∧
      ((∀ n, .reference n ∈ ls → isPath (anchoredName heads n)) → ∀ d : Dialect,
        (∀ n, .reference n ∈ ls → (p.resolve? (rebaseName heads (String.ofList n))).isSome) ∧
            p.resolveText d f.text = .ok (String.ofList
              (replacedText (fun n => p.targetChars d (anchoredName heads n)) ls)) ∨
          ∃ n, .reference n ∈ ls ∧ p.resolve? (rebaseName heads (String.ofList n)) = none ∧
            p.resolveText d f.text =
              .error (.unresolvedReference (rebaseName heads (String.ofList n)))) := by
  obtain ⟨heads, text, stated, made, this⟩ := anchored_of_build built f hf
  obtain ⟨ls, read, -⟩ : ∃ ls, lexemes text.toList = .ok ls ∧ _ := by
    unfold rebase substituteReferences at made
    exact ok_bind.mp made
  have reads := lexemes_rebase_iff read made
  refine ⟨heads, text, ls, stated, this, made, read, reads, ?_⟩
  intro paths d
  have written : ∀ n, String.ofList (anchoredName heads n) = rebaseName heads (String.ofList n) :=
    fun n => String.ofList_toList
  rcases resolveText_or (reads.mpr paths) (p := p) (d := d) with ⟨known, resolved⟩ | ⟨m, hm, unknown, failed⟩
  · refine .inl ⟨fun n hn => ?_, ?_⟩
    · rw [← written]
      exact known _ (mem_renamed.mpr ⟨n, hn, rfl⟩)
    · rw [resolved, renamed, replacedText, replaced_rename]
  · obtain ⟨n, hn, rfl⟩ := mem_renamed.mp hm
    rw [written] at unknown failed
    exact .inr ⟨n, hn, unknown, failed⟩

theorem anchored_reads_iff_fleet : ∃ p f, Plan.build fleet "Truck" = .ok p ∧ f ∈ p.texts {} ∧
    f.text = "COALESCE(\x7bvehicle.cargo\x7d, :empty)" ∧
    ∃ heads text ls, fleet.States (heads.map (·.1)) text ∧
      (∃ path ∈ p.aliases.map (·.path), heads.lookup "this" = some path) ∧
      rebase heads text = .ok f.text ∧ lexemes text.toList = .ok ls ∧
      (lexemes f.text.toList = .ok (renamed heads ls) ↔
        ∀ n, .reference n ∈ ls → isPath (anchoredName heads n)) ∧
      ((∀ n, .reference n ∈ ls → isPath (anchoredName heads n)) → ∀ d : Dialect,
        (∀ n, .reference n ∈ ls → (p.resolve? (rebaseName heads (String.ofList n))).isSome) ∧
            p.resolveText d f.text = .ok (String.ofList
              (replacedText (fun n => p.targetChars d (anchoredName heads n)) ls)) ∨
          ∃ n, .reference n ∈ ls ∧ p.resolve? (rebaseName heads (String.ofList n)) = none ∧
            p.resolveText d f.text =
              .error (.unresolvedReference (rebaseName heads (String.ofList n)))) := by
  obtain ⟨p, built, found⟩ := ok_of_map (x := Plan.build fleet "Truck")
    (f := fun p => (p.texts {}).head?.map (·.text))
    (b := some "COALESCE(\x7bvehicle.cargo\x7d, :empty)") (by decide +kernel)
  obtain ⟨f, first, text⟩ := Option.map_eq_some_iff.mp found
  have hf : f ∈ p.texts {} := List.mem_of_head? first
  exact ⟨p, f, built, hf, text, Plan.anchored_reads_iff built hf⟩

/-- At a table with a hyphen in its name the anchored reference is no path, and its braces are text. -/
example : ¬isPath (anchoredName [("this", "sales-order")] "this.total".toList) ∧
    (lexemes "ROUND(\x7bsales-order.total\x7d)".toList).toOption.map (·.all Lexeme.isText) = some true := by
  decide +kernel

end Orm
