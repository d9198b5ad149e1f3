import Mathlib.Data.List.Nodup
import Orm.Proofs.Plan.Derivation

/-!
# `Proofs.Plan.SelectList` — what the labels of a plan stand for

An object is read from a row by labels: the keys of the levels of its entity, the discriminator, and
its single values at any depth of value objects. The select list gives each label an expression. This
module says which labels are selected, and when a single value reads an expression of its own.

The walk asks for entries, and the first request for a label is the one that counts. A key column is
asked for with the key of the level, so the single value that holds it asks for nothing: it relies on
the level to have asked under the same label.

## Contents
- **Requests.** `offerAll`, `find?_offerAll`, `Derives.select_eq`.
- **Cells.** `Cell`, `Cell.From`, `Members.cells`, `Entity.cells`.
- **What is asked for.** `Entity.Asks`, `Plan.Asks`.
- **Labels.** `Plan.labels`, `mem_labels_iff`, `reads_selected_iff`, `reads_selected_of_declared`.
- **Expressions.** `cells_read_own_iff`, `cell_reads_own_of_uncontested`.
-/

namespace Orm

namespace Plan

open Sql Schema

/-! ## Requests -/

/-- A select list after some requests, in turn. -/
def offerAll (items asked : List SelectItem) : List SelectItem :=
  asked.foldl (fun items item => offer items item.expression item.label) items

theorem offerAll_append (items asked more : List SelectItem) :
    offerAll items (asked ++ more) = offerAll (offerAll items asked) more :=
  List.foldl_append

/-- A label stands for what it stood for, and else for what is offered under it. -/
theorem find?_offer (items : List SelectItem) (e : Expression) (label l : String) :
    (offer items e label).find? (·.label == l) =
      (items.find? (·.label == l)).or (if label = l then some ⟨e, label⟩ else none) := by
  unfold offer
  split
  next taken =>
    obtain ⟨item, hi, same⟩ := List.any_eq_true.mp taken
    by_cases h : label = l
    · have found : (items.find? (·.label == l)).isSome :=
        List.find?_isSome.mpr ⟨item, hi, by rw [← h]; exact same⟩
      obtain ⟨first, hf⟩ := Option.isSome_iff_exists.mp found
      rw [hf]
      rfl
    · rw [if_neg h, Option.or_none]
  next =>
    rw [List.find?_append, List.find?_singleton]
    simp

/-- **The first request for a label counts.** -/
theorem find?_offerAll (items asked : List SelectItem) (l : String) :
    (offerAll items asked).find? (·.label == l) =
      (items.find? (·.label == l)).or (asked.find? (·.label == l)) := by
  induction asked generalizing items with
  | nil => exact Option.or_none.symm
  | cons item rest ih =>
    show (offerAll (offer items item.expression item.label) rest).find? _ = _
    rw [ih, find?_offer, Option.or_assoc, List.find?_cons]
    by_cases h : item.label = l
    · subst h
      rw [if_pos rfl, beq_self_eq_true]
      rfl
    · rw [if_neg h, beq_false_of_ne h]
      rfl

theorem nodup_offerAll {items : List SelectItem} (asked : List SelectItem)
    (distinct : (items.map (·.label)).Nodup) : ((offerAll items asked).map (·.label)).Nodup := by
  induction asked generalizing items with
  | nil => exact distinct
  | cons item rest ih =>
    refine ih ?_
    show ((offer items item.expression item.label).map (·.label)).Nodup
    unfold offer
    split
    next => exact distinct
    next free =>
      rw [List.map_append, List.nodup_append]
      refine ⟨distinct, by simp, ?_⟩
      rintro l old m new rfl
      obtain ⟨other, ho, same⟩ := List.mem_map.mp old
      have taken : items.any (·.label == item.label) = true :=
        List.any_eq_true.mpr ⟨other, ho, by simp [same, List.mem_singleton.mp new]⟩
      exact free taken

theorem Draft.select_withKeys (path : String) (ids : List FieldModel) (d : Draft) :
    (d.withKeys path ids).select = offerAll d.select (keyItems path ids) := by
  induction ids generalizing d with
  | nil => rfl
  | cons id rest ih => exact ih _

theorem Draft.select_opened (d : Draft) (path : String) (layout : Layout)
    (attachment : Option Attachment) :
    (d.opened path layout attachment).select =
      offerAll d.select (discriminatorItems path layout) := by
  change (d.discriminating path layout).select = _
  unfold Draft.discriminating discriminatorItems
  cases layout.discrimination <;> rfl

theorem Linked.select_eq {scope : Scope} {f : FieldModel} {d d' : Draft} (h : Linked scope f d d') :
    d'.select = d.select := by
  unfold Linked at h
  split at h
  next =>
    obtain ⟨a, -, -, rfl⟩ := h
    rfl
  next => rw [h]

/-- **The select list is what was asked for**, the first request for each label. -/
theorem Derives.select_eq {s : Schema} {t : Task} {d d' : Draft} {m : Members}
    {asked : List SelectItem} (h : Derives s t d m asked d') :
    d'.select = offerAll d.select asked := by
  induction h with
  | key => rfl
  | column => rfl
  | computed => rfl
  | embedded _ _ _ _ ih => exact ih
  | relation _ _ _ _ linked _ _ ih => rw [ih, linked.select_eq]
  | done => rfl
  | skip _ _ ih => exact ih
  | next _ _ _ first rest => rw [rest, first, offerAll_append]
  | bottom => rfl
  | level _ _ first rest =>
    rw [rest, first, Draft.select_withKeys, offerAll_append, offerAll_append]
  | entity _ _ _ late ih =>
    obtain ⟨joins, groups, rfl⟩ := late_of_addLate late
    rw [offerAll_append, ← Draft.select_opened]
    exact ih

/-! ## Cells -/

/-- A single value of an object: the value objects that it is in, from the outermost in, its field
and its label. -/
structure Cell where
  chain : List FieldModel
  field : FieldModel
  label : String
  deriving DecidableEq, Repr

/-- What a label has after its table: the names on the way to a field. -/
def nameSuffix : List FieldModel → String
  | [] => ""
  | f :: rest => "." ++ f.name ++ nameSuffix rest

/-- What the columns of nested value objects begin with. -/
def chainPrefix : List FieldModel → String
  | [] => ""
  | f :: rest => f.embedPrefix ++ chainPrefix rest

theorem nameSuffix_concat (chain : List FieldModel) (f : FieldModel) :
    nameSuffix (chain ++ [f]) = nameSuffix chain ++ "." ++ f.name := by
  induction chain with
  | nil => simp [nameSuffix]
  | cons g rest ih =>
    show "." ++ g.name ++ nameSuffix (rest ++ [f]) = "." ++ g.name ++ nameSuffix rest ++ "." ++ f.name
    rw [ih]
    simp only [String.append_assoc]

theorem chainPrefix_concat (chain : List FieldModel) (f : FieldModel) :
    chainPrefix (chain ++ [f]) = chainPrefix chain ++ f.embedPrefix := by
  induction chain with
  | nil => simp [chainPrefix]
  | cons g rest ih =>
    show g.embedPrefix ++ chainPrefix (rest ++ [f]) = g.embedPrefix ++ chainPrefix rest ++ f.embedPrefix
    rw [ih, String.append_assoc]

namespace Cell

/-- The label of the cell in a table. -/
def labelUnder (c : Cell) (table : String) : String :=
  table ++ nameSuffix (c.chain ++ [c.field])

/-- Whether the cell relies on the key of its level: a key field of its own column, without a prefix. -/
def isKey (c : Cell) : Bool :=
  c.field.id && (chainPrefix c.chain).isEmpty && c.field.sql.isNone

/-- The source of the cell in a table of an entity: its own text for the entity, or else the column
of the table that its prefix and its name make. -/
def From (entity table : String) (c : Cell) (e : Expression) : Prop :=
  c.label = c.labelUnder table ∧
    match c.field.sql with
    | some sql => ∃ text, rebase [("this", entity)] sql = .ok text ∧ e = .raw text
    | none => e = .column ⟨table, chainPrefix c.chain ++ c.field.column⟩

theorem labelUnder_inj {c : Cell} {table other : String}
    (h : c.labelUnder table = c.labelUnder other) : table = other :=
  (String.append_left_inj _).mp h

/-- A cell has one source. -/
theorem From.unique {entity table other : String} {c : Cell} {e e' : Expression}
    (h : c.From entity table e) (h' : c.From entity other e') : e = e' := by
  obtain rfl := labelUnder_inj (h.1.symm.trans h'.1)
  have left := h.2
  have right := h'.2
  cases hs : c.field.sql with
  | none =>
    rw [hs] at left right
    exact left.trans right.symm
  | some sql =>
    rw [hs] at left right
    obtain ⟨text, made, rfl⟩ := left
    obtain ⟨text', made', rfl⟩ := right
    rw [made] at made'
    cases made'
    rfl

end Cell

/-- The cells of members inside some value objects. -/
def Members.cells (chain : List FieldModel) : Members → List Cell
  | .nil => []
  | .column f label rest => ⟨chain, f, label⟩ :: rest.cells chain
  | .embedded f _ inner rest => inner.cells (chain ++ [f]) ++ rest.cells chain
  | .relation _ _ _ _ rest => rest.cells chain

/-- The cells of an entity. -/
def Entity.cells (e : Entity) : List Cell :=
  e.members.cells []

@[simp]
theorem Members.cells_append (chain : List FieldModel) (a b : Members) :
    (a ++ b).cells chain = a.cells chain ++ b.cells chain := by
  show (a.append b).cells chain = _
  induction a with
  | nil => rfl
  | column f label rest ih => simp [Members.append, Members.cells, ih]
  | embedded f t inner rest _ ih => simp [Members.append, Members.cells, ih]
  | relation f k child inner rest _ ih => simp [Members.append, Members.cells, ih]

/-- The labels of the cells are the labels of the members, value objects last. -/
theorem Members.mem_allLabels_iff (m : Members) (chain : List FieldModel) (label : String) :
    label ∈ m.allLabels ↔ label ∈ (m.cells chain).map (·.label) := by
  unfold Members.allLabels
  induction m generalizing chain with
  | nil => rfl
  | column f l rest ih =>
    simp only [Members.columns, Members.embeddedLabels, Members.cells, List.map_cons,
      List.cons_append, List.mem_cons]
    rw [ih]
  | embedded f t inner rest inner_ih ih =>
    simp only [Members.columns, Members.embeddedLabels, Members.cells, List.map_append,
      List.mem_append] at ih inner_ih ⊢
    rw [← ih, ← inner_ih (chain ++ [f])]
    exact or_left_comm
  | relation f k child inner rest _ ih => exact ih chain

/-! ## What is asked for -/

/-- An entity asks for an entry of the select list: with the key of a level, with its discriminator,
or with a cell that does not rely on a key. -/
inductive Entity.Asks (e : Entity) : SelectItem → Prop where
  | key {level : LevelPlan} {id : FieldModel} (of : level ∈ e.head.levels)
      (declared : id ∈ e.head.declared.idFields) :
      Asks e ⟨.column ⟨level.path, id.column⟩, level.path ++ "." ++ id.name⟩
  | discriminator {told : DiscriminatorPlan} {column : String}
      (tells : e.head.discriminator = some told) (label : told.label = e.head.path ++ "." ++ column) :
      Asks e ⟨.column ⟨e.head.path, column⟩, told.label⟩
  | cell {c : Cell} {level : LevelPlan} {expression : Expression} (of : c ∈ e.cells)
      (own : c.isKey = false) (at_level : level ∈ e.head.levels)
      (source : c.From e.head.path level.path expression) : Asks e ⟨expression, c.label⟩

/-- One of the entities that members lead to asks for an entry. -/
def Members.AskBelow (m : Members) (item : SelectItem) : Prop :=
  ∃ x ∈ m.entities, Entity.Asks ⟨x.1, x.2⟩ item

theorem Members.not_askBelow_nil {item : SelectItem} : ¬ Members.nil.AskBelow item := by
  rintro ⟨x, hx, -⟩
  cases hx

theorem Members.askBelow_append {a b : Members} {item : SelectItem} :
    (a ++ b).AskBelow item ↔ a.AskBelow item ∨ b.AskBelow item := by
  unfold Members.AskBelow
  simp only [Members.entities_append, List.mem_append, or_and_right, exists_or]

/-- A cell of members in one of some tables of an entity asks for an entry. -/
def Members.CellAsks (entity : String) (tables : List String) (chain : List FieldModel) (m : Members)
    (item : SelectItem) : Prop :=
  ∃ c ∈ m.cells chain, c.isKey = false ∧ c.label = item.label ∧
    ∃ table ∈ tables, c.From entity table item.expression

theorem Members.cellAsks_append {entity : String} {tables : List String} {chain : List FieldModel}
    {a b : Members} {item : SelectItem} :
    (a ++ b).CellAsks entity tables chain item ↔
      a.CellAsks entity tables chain item ∨ b.CellAsks entity tables chain item := by
  unfold Members.CellAsks
  simp only [Members.cells_append, List.mem_append, or_and_right, exists_or]

/-- Each cell of members has a source in one of some tables of an entity. -/
def Members.SourcedIn (entity : String) (tables : List String) (chain : List FieldModel)
    (m : Members) : Prop :=
  ∀ c ∈ m.cells chain, ∃ table ∈ tables, ∃ e, c.From entity table e

section

variable {entity : String} {tables more : List String} {chain : List FieldModel} {m : Members}

theorem Members.sourcedIn_of_cells_nil (none : m.cells chain = []) :
    m.SourcedIn entity tables chain := by
  intro c hc
  rw [none] at hc
  cases hc

theorem Members.not_cellAsks_of_cells_nil (none : m.cells chain = []) {item : SelectItem} :
    ¬ m.CellAsks entity tables chain item := by
  rintro ⟨c, hc, -⟩
  rw [none] at hc
  cases hc

theorem Members.SourcedIn.append {a b : Members} (ha : a.SourcedIn entity tables chain)
    (hb : b.SourcedIn entity tables chain) : (a ++ b).SourcedIn entity tables chain := by
  intro c hc
  rw [Members.cells_append] at hc
  exact (List.mem_append.mp hc).elim (ha c) (hb c)

theorem Members.SourcedIn.widen (h : m.SourcedIn entity tables chain) (sub : tables ⊆ more) :
    m.SourcedIn entity more chain := by
  intro c hc
  obtain ⟨table, ht, source⟩ := h c hc
  exact ⟨table, sub ht, source⟩

/-- A label tells the table, so more tables make no more requests. -/
theorem Members.SourcedIn.cellAsks_widen (h : m.SourcedIn entity tables chain)
    (sub : tables ⊆ more) {item : SelectItem} :
    m.CellAsks entity more chain item ↔ m.CellAsks entity tables chain item := by
  constructor
  · rintro ⟨c, hc, own, label, table, -, source⟩
    obtain ⟨other, ho, _, there⟩ := h c hc
    obtain rfl := Cell.labelUnder_inj (source.1.symm.trans there.1)
    exact ⟨c, hc, own, label, table, ho, source⟩
  · rintro ⟨c, hc, own, label, table, ht, source⟩
    exact ⟨c, hc, own, label, table, sub ht, source⟩

end

/-- A scope is that of some value objects inside a level. -/
structure Scope.Within (scope : Scope) (chain : List FieldModel) : Prop where
  label : scope.labelBase = scope.levelAlias ++ nameSuffix chain
  prefixed : scope.columnPrefix = chainPrefix chain

theorem Scope.Within.level (place : Place) (p : PlacedLevel) : (place.scope p).Within [] :=
  ⟨(String.append_empty).symm, rfl⟩

theorem Scope.Within.inside {scope : Scope} {chain : List FieldModel} (h : scope.Within chain)
    (f : FieldModel) (target : TypeModel) : (scope.inside f target).Within (chain ++ [f]) where
  label := by
    show scope.labelBase ++ "." ++ f.name = scope.levelAlias ++ nameSuffix (chain ++ [f])
    rw [h.label, nameSuffix_concat]
    simp only [String.append_assoc]
  prefixed := by
    show scope.columnPrefix ++ f.embedPrefix = _
    rw [h.prefixed, chainPrefix_concat]

/-- The cell that a field is read from in a scope. -/
def Scope.cell (scope : Scope) (chain : List FieldModel) (f : FieldModel) : Cell :=
  ⟨chain, f, scope.label f⟩

theorem Scope.Within.labelUnder {scope : Scope} {chain : List FieldModel} (h : scope.Within chain)
    (f : FieldModel) : (scope.cell chain f).label = (scope.cell chain f).labelUnder scope.levelAlias := by
  show scope.labelBase ++ "." ++ f.name = scope.levelAlias ++ nameSuffix (chain ++ [f])
  rw [h.label, nameSuffix_concat]
  simp only [String.append_assoc]

theorem Scope.Within.isKey {scope : Scope} {chain : List FieldModel} (h : scope.Within chain)
    (f : FieldModel) : (scope.cell chain f).isKey = scope.isKey f := by
  show (f.id && (chainPrefix chain).isEmpty && f.sql.isNone) = _
  rw [← h.prefixed]
  rfl

/-- What members and the requests of a part of the walk have to do with each other. -/
def Task.Tells (m : Members) (asked : List SelectItem) : Task → Prop
  | .field scope _ | .fields scope _ => ∀ chain, scope.Within chain →
    m.SourcedIn scope.entityPath [scope.levelAlias] chain ∧ ∀ item, item ∈ asked ↔
      m.CellAsks scope.entityPath [scope.levelAlias] chain item ∨ m.AskBelow item
  | .levels place ps => m.SourcedIn place.path (ps.map (·.path)) [] ∧ ∀ item, item ∈ asked ↔
      (∃ p ∈ ps, item ∈ keyItems p.path place.ids) ∨
        m.CellAsks place.path (ps.map (·.path)) [] item ∨ m.AskBelow item
  | .entity path _ _ layout _ => m.SourcedIn path ((placedLevels path layout).map (·.path)) [] ∧
      ∀ index item, item ∈ asked ↔
        Entity.Asks ⟨entityHead path layout index, m⟩ item ∨ m.AskBelow item

/-! ### One field -/

section

variable {scope : Scope} {chain : List FieldModel} {f : FieldModel}

theorem sourcedIn_column {e : Expression}
    (source : (scope.cell chain f).From scope.entityPath scope.levelAlias e) :
    (Members.column f (scope.label f) .nil).SourcedIn scope.entityPath [scope.levelAlias] chain := by
  intro c hc
  obtain rfl : c = scope.cell chain f := List.mem_singleton.mp hc
  exact ⟨scope.levelAlias, List.mem_singleton_self _, e, source⟩

theorem not_askBelow_column {label : String} {item : SelectItem} :
    ¬ (Members.column f label .nil).AskBelow item := by
  rintro ⟨x, hx, -⟩
  cases hx

/-- A cell that relies on a key asks for nothing. -/
theorem Scope.Within.tells_key (h : scope.Within chain) (isKey : scope.isKey f = true)
    (item : SelectItem) :
    ¬ (Members.column f (scope.label f) .nil).CellAsks scope.entityPath [scope.levelAlias] chain
      item := by
  rintro ⟨c, hc, own, -⟩
  obtain rfl : c = scope.cell chain f := List.mem_singleton.mp hc
  rw [h.isKey, isKey] at own
  cases own

/-- Any other cell asks for its source under its label. -/
theorem Scope.Within.tells_own (h : scope.Within chain) (noKey : scope.isKey f = false)
    {e : Expression} (source : (scope.cell chain f).From scope.entityPath scope.levelAlias e)
    (item : SelectItem) :
    item ∈ [SelectItem.mk e (scope.label f)] ↔
      (Members.column f (scope.label f) .nil).CellAsks scope.entityPath [scope.levelAlias] chain
        item := by
  constructor
  · intro hi
    obtain rfl := List.mem_singleton.mp hi
    exact ⟨scope.cell chain f, List.mem_singleton_self _, (h.isKey f).trans noKey, rfl,
      scope.levelAlias, List.mem_singleton_self _, source⟩
  · rintro ⟨c, hc, -, label, table, -, found⟩
    obtain rfl : c = scope.cell chain f := List.mem_singleton.mp hc
    obtain ⟨expression, l⟩ := item
    obtain rfl : expression = e := found.unique source
    obtain rfl : scope.label f = l := label
    exact List.mem_singleton_self _

theorem Scope.Within.from_column (h : scope.Within chain) (noSql : f.sql = none) :
    (scope.cell chain f).From scope.entityPath scope.levelAlias
      (.column ⟨scope.levelAlias, scope.columnPrefix ++ f.column⟩) := by
  refine ⟨h.labelUnder f, ?_⟩
  show match f.sql with | some sql => _ | none => _
  rw [noSql, h.prefixed]
  rfl

theorem Scope.Within.from_text (h : scope.Within chain) {sql text : String}
    (hasSql : f.sql = some sql) (anchor : rebase [("this", scope.entityPath)] sql = .ok text) :
    (scope.cell chain f).From scope.entityPath scope.levelAlias (.raw text) := by
  refine ⟨h.labelUnder f, ?_⟩
  show match f.sql with | some sql => _ | none => _
  rw [hasSql]
  exact ⟨text, anchor, rfl⟩

end

/-! ### One entity -/

theorem mem_discriminatorItems {path : String} {layout : Layout} {index : Nat} {m : Members}
    {item : SelectItem} (h : item ∈ discriminatorItems path layout) :
    Entity.Asks ⟨entityHead path layout index, m⟩ item := by
  obtain ⟨dis, hd, rfl⟩ := List.mem_map.mp h
  have tells : layout.discrimination = some dis := Option.mem_toList.mp hd
  have plan : (entityHead path layout index).discriminator =
      some ⟨path ++ "." ++ dis.column, layout.declared, dis.candidates⟩ := by
    show layout.discrimination.map _ = _
    rw [tells]
    rfl
  exact .discriminator (e := ⟨entityHead path layout index, m⟩) plan rfl

theorem mem_keyItems {path : String} {layout : Layout} {index : Nat} {m : Members} {p : PlacedLevel}
    (hp : p ∈ placedLevels path layout) {item : SelectItem}
    (h : item ∈ keyItems p.path layout.declared.idFields) :
    Entity.Asks ⟨entityHead path layout index, m⟩ item := by
  obtain ⟨id, hid, rfl⟩ := List.mem_map.mp h
  have level : levelPlan layout.declared.idFields p ∈ (entityHead path layout index).levels :=
    List.mem_map.mpr ⟨p, hp, rfl⟩
  exact .key (e := ⟨entityHead path layout index, m⟩) level hid

/-- An entity asks with its discriminator, with the keys of its levels, or with its cells. -/
theorem asks_iff {path : String} {layout : Layout} (index : Nat) (m : Members) (item : SelectItem) :
    Entity.Asks ⟨entityHead path layout index, m⟩ item ↔
      item ∈ discriminatorItems path layout ∨
      (∃ p ∈ placedLevels path layout, item ∈ keyItems p.path layout.declared.idFields) ∨
      m.CellAsks path ((placedLevels path layout).map (·.path)) [] item := by
  constructor
  · intro asks
    cases asks with
    | @key level id of declared =>
      obtain ⟨p, hp, rfl⟩ := List.mem_map.mp of
      exact .inr (.inl ⟨p, hp, List.mem_map.mpr ⟨id, declared, rfl⟩⟩)
    | @discriminator told column tells label =>
      obtain ⟨dis, hd, rfl⟩ := Option.map_eq_some_iff.mp tells
      obtain rfl : dis.column = column := (String.append_right_inj _).mp label
      exact .inl (List.mem_map.mpr ⟨dis, Option.mem_toList.mpr hd, rfl⟩)
    | @cell c level expression of own at_level source =>
      obtain ⟨p, hp, rfl⟩ := List.mem_map.mp at_level
      exact .inr (.inr ⟨c, of, own, rfl, p.path, List.mem_map.mpr ⟨p, hp, rfl⟩, source⟩)
  · rintro (told | ⟨p, hp, key⟩ | ⟨c, hc, own, label, table, ht, source⟩)
    · exact mem_discriminatorItems told
    · exact mem_keyItems hp key
    · obtain ⟨p, hp, rfl⟩ := List.mem_map.mp ht
      obtain ⟨expression, l⟩ := item
      obtain rfl : c.label = l := label
      exact .cell (e := ⟨entityHead path layout index, m⟩) hc own
        (List.mem_map.mpr ⟨p, hp, rfl⟩) source

/-- A level asks with its keys and its cells, and the levels after it with theirs. -/
theorem Task.Tells.level {place : Place} {p : PlacedLevel} {ps : List PlacedLevel} {here later : Members}
    {asked more : List SelectItem}
    (first : Task.Tells here asked (.fields (place.scope p) p.level.fields))
    (rest : Task.Tells later more (.levels place ps)) :
    Task.Tells (here ++ later) (keyItems p.path place.ids ++ (asked ++ more)) (.levels place (p :: ps)) := by
  obtain ⟨sourced, asks⟩ := first [] (.level place p)
  obtain ⟨sourced', asks'⟩ := rest
  have here_sub : [p.path] ⊆ (p :: ps).map (·.path) := by simp
  have later_sub : ps.map (·.path) ⊆ (p :: ps).map (·.path) := List.subset_cons_self _ _
  refine ⟨(sourced.widen here_sub).append (sourced'.widen later_sub), fun item => ?_⟩
  rw [List.mem_append, List.mem_append, asks, asks', Members.cellAsks_append,
    Members.askBelow_append, sourced'.cellAsks_widen later_sub]
  have widen : here.CellAsks place.path ((p :: ps).map (·.path)) [] item ↔
      here.CellAsks place.path [p.path] [] item := sourced.cellAsks_widen here_sub
  rw [widen]
  show _ ∨ (here.CellAsks place.path [p.path] [] item ∨ _) ∨ _ ↔ _
  simp only [List.mem_cons, exists_eq_or_imp]
  ac_nf

/-- **What a part of the walk asks for is what its cells, its levels and the entities below ask
for.** -/
theorem Derives.tells {s : Schema} {t : Task} {d d' : Draft} {m : Members}
    {asked : List SelectItem} (h : Derives s t d m asked d') : t.Tells m asked := by
  induction h with
  | @key scope f _ _ isKey =>
    intro chain within
    have noSql : f.sql = none := by
      unfold Scope.isKey at isKey
      exact Option.isNone_iff_eq_none.mp (Bool.and_eq_true_iff.mp isKey).2
    refine ⟨sourcedIn_column (within.from_column noSql), fun item => ⟨?_, ?_⟩⟩
    · intro asked
      cases asked
    · rintro (cell | below)
      · exact (within.tells_key isKey item cell).elim
      · exact (not_askBelow_column below).elim
  | column _ noKey noSql =>
    intro chain within
    refine ⟨sourcedIn_column (within.from_column noSql), fun item => ?_⟩
    rw [within.tells_own noKey (within.from_column noSql), or_iff_left not_askBelow_column]
  | @computed scope f _ _ _ _ hasSql anchor =>
    intro chain within
    have noKey : scope.isKey f = false := by
      unfold Scope.isKey
      rw [hasSql]
      exact Bool.and_false _
    refine ⟨sourcedIn_column (within.from_text hasSql anchor), fun item => ?_⟩
    rw [within.tells_own noKey (within.from_text hasSql anchor), or_iff_left not_askBelow_column]
  | @embedded scope f _ _ _ target inner _ _ _ _ _ ih =>
    intro chain within
    obtain ⟨sourced, asks⟩ := ih (chain ++ [f]) (within.inside f target)
    have cells : (Members.embedded f target inner .nil).cells chain = inner.cells (chain ++ [f]) :=
      List.append_nil _
    refine ⟨fun c hc => sourced c (cells ▸ hc), fun item => ?_⟩
    rw [asks item]
    unfold Members.CellAsks Members.AskBelow
    rw [cells, Members.entities_embedded]
    rfl
  | @relation scope f _ d₁ _ _ _ layout _ inner _ _ _ _ _ _ _ _ ih =>
    intro chain _
    refine ⟨Members.sourcedIn_of_cells_nil rfl, fun item => ?_⟩
    rw [ih.2 d₁.entityCount item, or_iff_right (Members.not_cellAsks_of_cells_nil rfl)]
    unfold Members.AskBelow
    simp
  | done =>
    intro chain _
    refine ⟨Members.sourcedIn_of_cells_nil rfl, fun item => ?_⟩
    rw [or_iff_right (Members.not_cellAsks_of_cells_nil rfl)]
    exact iff_of_false List.not_mem_nil Members.not_askBelow_nil
  | skip _ _ ih => exact ih
  | next _ _ _ first rest =>
    intro chain within
    obtain ⟨sourced, asks⟩ := first chain within
    obtain ⟨sourced', asks'⟩ := rest chain within
    refine ⟨sourced.append sourced', fun item => ?_⟩
    rw [List.mem_append, asks, asks', Members.cellAsks_append, Members.askBelow_append]
    exact or_or_or_comm
  | bottom =>
    refine ⟨Members.sourcedIn_of_cells_nil rfl, fun item => ?_⟩
    rw [or_iff_right (Members.not_cellAsks_of_cells_nil rfl), or_iff_left Members.not_askBelow_nil]
    refine iff_of_false List.not_mem_nil ?_
    rintro ⟨p, hp, -⟩
    cases hp
  | level _ _ first rest => exact first.level rest
  | @entity path _ _ layout _ _ _ _ members _ _ _ _ _ ih =>
    obtain ⟨sourced, asks⟩ := ih
    refine ⟨sourced, fun index item => ?_⟩
    rw [List.mem_append, asks, asks_iff]
    simp only [or_assoc]

/-- Each cell of an entity has a source in one of its levels. -/
theorem Entity.Walked.sourced {s : Schema} {e : Entity} (h : e.Walked s) :
    ∀ c ∈ e.cells, ∃ level ∈ e.head.levels, ∃ x, c.From e.head.path level.path x := by
  obtain ⟨-, -, walk⟩ := h
  intro c hc
  obtain ⟨table, ht, x, source⟩ := walk.tells.1 c hc
  obtain ⟨p, hp, rfl⟩ := List.mem_map.mp ht
  exact ⟨levelPlan _ p, List.mem_map.mpr ⟨p, hp, rfl⟩, x, source⟩

/-! ## Labels -/

variable {s : Schema} {name : String} {p : Plan} {asked : List SelectItem}

/-- The labels that a plan selects. -/
def labels (p : Plan) : List String :=
  p.select.map (·.label)

/-- One of the entities of a plan asks for an entry. -/
def Asks (p : Plan) (item : SelectItem) : Prop :=
  ∃ e ∈ p.entities, e.Asks item

/-- The labels that objects of an entity are read by: the keys of its levels, its discriminator, and
its single values at any depth. -/
def Entity.reads (e : Entity) : List String :=
  e.head.levels.flatMap (·.keyLabels) ++ (e.head.discriminator.map (·.label)).toList ++
    e.members.allLabels

theorem Derivation.select_eq (h : Derivation s name p asked) : p.select = offerAll [] asked := by
  rw [h.plan]
  exact h.derived.select_eq

/-- The walk asks for what the entities of the plan ask for. -/
theorem Derivation.asked_iff (h : Derivation s name p asked) (item : SelectItem) :
    item ∈ asked ↔ p.Asks item := by
  obtain ⟨_, layout, members, d, _, _, derived, rfl⟩ := h
  rw [derived.tells.2 0 item]
  constructor
  · rintro (root | ⟨x, hx, below⟩)
    · exact ⟨_, List.mem_cons_self, root⟩
    · exact ⟨⟨x.1, x.2⟩, List.mem_cons_of_mem _ (List.mem_map.mpr ⟨x, hx, rfl⟩), below⟩
  · rintro ⟨e, he, asks⟩
    rcases List.mem_cons.mp he with rfl | below
    · exact .inl asks
    · obtain ⟨x, hx, rfl⟩ := List.mem_map.mp below
      exact .inr ⟨x, hx, asks⟩

/-- An entry of the select list was asked for, and no other has its label. -/
theorem Derivation.find?_select (h : Derivation s name p asked) (label : String) :
    p.select.find? (·.label == label) = asked.find? (·.label == label) := by
  rw [h.select_eq, find?_offerAll]
  rfl

/-- **The labels of a plan are those under which something is asked for.** -/
theorem Derivation.mem_labels_iff (h : Derivation s name p asked) (label : String) :
    label ∈ p.labels ↔ ∃ item, p.Asks item ∧ item.label = label := by
  have found : ∀ items : List SelectItem,
      label ∈ items.map (·.label) ↔ (items.find? (·.label == label)).isSome := fun items => by
    rw [List.find?_isSome, List.mem_map]
    exact exists_congr fun item => and_congr_right fun _ => beq_iff_eq.symm
  rw [labels, found, h.find?_select, ← found, List.mem_map]
  exact exists_congr fun item => and_congr_left fun _ => h.asked_iff item

theorem key_selected (h : Derivation s name p asked) {e : Entity} (he : e ∈ p.entities)
    {level : LevelPlan} (hl : level ∈ e.head.levels) : ∀ label ∈ level.keyLabels, label ∈ p.labels := by
  intro label hk
  have walked := h.walked e he
  cases walked
  have level_mem := hl
  obtain ⟨placed, hp, rfl⟩ := List.mem_map.mp hl
  obtain ⟨id, hid, rfl⟩ := List.mem_map.mp hk
  have asks := Entity.Asks.key level_mem hid
  exact (h.mem_labels_iff _).mpr ⟨_, ⟨_, he, asks⟩, rfl⟩

theorem discriminator_selected (h : Derivation s name p asked) {e : Entity} (he : e ∈ p.entities)
    {told : DiscriminatorPlan} (tells : e.head.discriminator = some told) : told.label ∈ p.labels := by
  have walked := h.walked e he
  cases walked
  have made := tells
  obtain ⟨dis, -, rfl⟩ := Option.map_eq_some_iff.mp made
  have asks : Entity.Asks _ ⟨.column ⟨_, dis.column⟩, _⟩ := .discriminator tells rfl
  exact (h.mem_labels_iff _).mpr ⟨_, ⟨_, he, asks⟩, rfl⟩

/-- A cell that does not rely on a key is selected. -/
theorem cell_selected (h : Derivation s name p asked) {e : Entity} (he : e ∈ p.entities) {c : Cell}
    (hc : c ∈ e.cells) (own : c.isKey = false) : c.label ∈ p.labels := by
  obtain ⟨level, hl, x, source⟩ := (h.walked e he).sourced c hc
  exact (h.mem_labels_iff _).mpr ⟨_, ⟨e, he, .cell hc own hl source⟩, rfl⟩

theorem mem_reads {e : Entity} {label : String} :
    label ∈ e.reads ↔ (∃ level ∈ e.head.levels, label ∈ level.keyLabels) ∨
      (∃ told, e.head.discriminator = some told ∧ told.label = label) ∨
      ∃ c ∈ e.cells, c.label = label := by
  unfold Entity.reads Entity.cells
  rw [List.mem_append, List.mem_append, List.mem_flatMap, Members.mem_allLabels_iff _ [],
    List.mem_map, Option.mem_toList, Option.map_eq_some_iff, or_assoc]

/-- All that a plan reads is selected where each cell that relies on a key finds its label asked
for. -/
theorem reads_selected (h : Derivation s name p asked)
    (keys : ∀ e ∈ p.entities, ∀ c ∈ e.cells, c.isKey = true →
      ∃ item, p.Asks item ∧ item.label = c.label) :
    ∀ e ∈ p.entities, ∀ label ∈ e.reads, label ∈ p.labels := by
  intro e he label hl
  rcases mem_reads.mp hl with ⟨level, hlevel, key⟩ | ⟨told, tells, rfl⟩ | ⟨c, hc, rfl⟩
  · exact key_selected h he hlevel label key
  · exact discriminator_selected h he tells
  · cases own : c.isKey with
    | false => exact cell_selected h he hc own
    | true => exact (h.mem_labels_iff _).mpr (keys e he c hc own)

/-- **Which labels are selected.** All that a plan reads is selected just if every cell that relies
on a key finds its label asked for by something else. The walk does not see to that: a key field that
is no key of the declared type, such as one that a subclass declares or one of a value object without
a prefix, is not in the key of its level. -/
theorem reads_selected_iff (h : Plan.build s name = .ok p) :
    (∀ e ∈ p.entities, ∀ label ∈ e.reads, label ∈ p.labels) ↔
      ∀ e ∈ p.entities, ∀ c ∈ e.cells, c.isKey = true →
        ∃ item, p.Asks item ∧ item.label = c.label := by
  obtain ⟨asked, ⟨derivation⟩⟩ := derivation_of_build h
  refine ⟨fun all e he c hc _ => ?_, reads_selected derivation⟩
  exact (derivation.mem_labels_iff _).mp (all e he c.label (mem_reads.mpr (.inr (.inr ⟨c, hc, rfl⟩))))

/-- A person's plan also reads the badge of an employee, a key field of the subclass only. -/
def badges : Schema where
  sources := [⟨.runtime, [
    { name := "Person", table := some ⟨none, "person"⟩, subclasses := ["Employee"],
      fields := [{ name := "id", type := .value .bigInt, attrs := { id := some true } }] },
    { name := "Employee", table := some ⟨none, "employee"⟩, superclass := some "Person",
      fields := [{ name := "badge", type := .value .text, attrs := { id := some true } }] }]⟩]

theorem reads_selected_iff_badges : ∃ p, Plan.build badges "Person" = .ok p ∧
    p.labels = ["person.id", "person.employee.id"] ∧
    p.entities.map Entity.reads =
      [["person.id", "person.employee.id", "person.id", "person.employee.badge"]] ∧
    ((∀ e ∈ p.entities, ∀ label ∈ e.reads, label ∈ p.labels) ↔
      ∀ e ∈ p.entities, ∀ c ∈ e.cells, c.isKey = true →
        ∃ item, p.Asks item ∧ item.label = c.label) := by
  obtain ⟨p, built, both⟩ := ok_of_map (x := Plan.build badges "Person")
    (f := fun p => (p.labels, p.entities.map Entity.reads))
    (b := (["person.id", "person.employee.id"],
      [["person.id", "person.employee.id", "person.id", "person.employee.badge"]]))
    (by decide +kernel)
  exact ⟨p, built, congrArg Prod.fst both, congrArg Prod.snd both, reads_selected_iff built⟩

/-- It is enough that the key fields without a prefix are fields of the type of the entity itself and
have the names of its keys. -/
theorem reads_selected_of_declared (h : Plan.build s name = .ok p)
    (declared : ∀ e ∈ p.entities, ∀ c ∈ e.cells, c.isKey = true →
      c.chain = [] ∧ ∃ id ∈ e.head.declared.idFields, id.name = c.field.name) :
    ∀ e ∈ p.entities, ∀ label ∈ e.reads, label ∈ p.labels := by
  obtain ⟨asked, ⟨derivation⟩⟩ := derivation_of_build h
  refine reads_selected derivation fun e he c hc isKey => ?_
  obtain ⟨top, id, hid, same⟩ := declared e he c hc isKey
  obtain ⟨level, hl, x, source⟩ := (derivation.walked e he).sourced c hc
  refine ⟨_, ⟨e, he, .key hl hid⟩, ?_⟩
  rw [source.1, Cell.labelUnder, top, same]
  simp [nameSuffix, String.append_assoc]

/-! ## Expressions -/

/-- An expression is the source of a cell of an entity: its own text for the entity, or else its
column in the level that it is in. -/
def Entity.Sources (e : Entity) (c : Cell) (x : Expression) : Prop :=
  ∃ level ∈ e.head.levels, c.From e.head.path level.path x

/-- What is selected under the label of a cell is the source of the cell. -/
def ReadsOwn (p : Plan) (e : Entity) (c : Cell) : Prop :=
  ∀ item ∈ p.select, item.label = c.label → e.Sources c item.expression

theorem Derivation.nodup_labels (h : Derivation s name p asked) : p.labels.Nodup := by
  unfold labels
  rw [h.select_eq]
  exact nodup_offerAll asked List.nodup_nil

theorem Derivation.mem_select_iff (h : Derivation s name p asked) (item : SelectItem) :
    item ∈ p.select ↔ p.select.find? (·.label == item.label) = some item := by
  constructor
  · intro hi
    have distinct : (p.select.map (·.label)).Nodup := h.nodup_labels
    obtain ⟨first, found⟩ := Option.isSome_iff_exists.mp (List.find?_isSome.mpr
      ⟨item, hi, beq_self_eq_true item.label⟩ : (p.select.find? (·.label == item.label)).isSome)
    have same : first.label = item.label := by simpa using List.find?_some found
    rw [found, List.inj_on_of_nodup_map distinct (List.mem_of_find?_eq_some found) hi same]
  · exact List.mem_of_find?_eq_some

/-- What is selected under a label is what was first asked for under it. -/
theorem Derivation.readsOwn_iff (h : Derivation s name p asked) (e : Entity) (c : Cell) :
    p.ReadsOwn e c ↔ ∀ first, asked.find? (·.label == c.label) = some first →
      e.Sources c first.expression := by
  rw [← h.find?_select]
  constructor
  · intro own first found
    have same : first.label = c.label := by simpa using List.find?_some found
    exact own first (List.mem_of_find?_eq_some found) same
  · intro own item hi same
    refine own item ?_
    rw [← same]
    exact (h.mem_select_iff item).mp hi

/-- **When a cell reads an expression of its own.** The walk of a plan asks for what its entities ask
for, in some order, and a cell reads its own source just if the first request for its label is one
for that source. The walk does not see to that either: a second request for a label is dropped,
whatever it is for, so that a key field with a text of its own reads its column, and a field with the
label of a discriminator reads the discriminator. -/
theorem cells_read_own_iff (h : Plan.build s name = .ok p) :
    ∃ asked, Nonempty (Derivation s name p asked) ∧ (∀ item, item ∈ asked ↔ p.Asks item) ∧
      ∀ e ∈ p.entities, ∀ c ∈ e.cells,
        (p.ReadsOwn e c ↔ ∀ first, asked.find? (·.label == c.label) = some first →
          e.Sources c first.expression) := by
  obtain ⟨asked, ⟨derivation⟩⟩ := derivation_of_build h
  exact ⟨asked, ⟨derivation⟩, derivation.asked_iff, fun e _ c _ => derivation.readsOwn_iff e c⟩

/-- A book is told by its number, which is to be read in capitals. -/
def books : Schema where
  sources := [⟨.runtime, [
    { name := "Book", table := some ⟨none, "book"⟩,
      fields := [
        { name := "isbn", type := .value .text,
          attrs := { id := some true, sql := some "UPPER(\x7bthis.isbn\x7d)" } }] }]⟩]

theorem cells_read_own_iff_books : ∃ p, Plan.build books "Book" = .ok p ∧
    p.select = [⟨.column ⟨"book", "isbn"⟩, "book.isbn"⟩] ∧
    p.entities.map (fun e => e.cells.map fun c => (c.label, c.field.sql)) =
      [[("book.isbn", some "UPPER(\x7bthis.isbn\x7d)")]] ∧
    ∃ asked, Nonempty (Derivation books "Book" p asked) ∧ (∀ item, item ∈ asked ↔ p.Asks item) ∧
      ∀ e ∈ p.entities, ∀ c ∈ e.cells,
        (p.ReadsOwn e c ↔ ∀ first, asked.find? (·.label == c.label) = some first →
          e.Sources c first.expression) := by
  obtain ⟨p, built, both⟩ := ok_of_map (x := Plan.build books "Book")
    (f := fun p => (p.select, p.entities.map fun e => e.cells.map fun c => (c.label, c.field.sql)))
    (b := ([⟨.column ⟨"book", "isbn"⟩, "book.isbn"⟩],
      [[("book.isbn", some "UPPER(\x7bthis.isbn\x7d)")]]))
    (by decide +kernel)
  exact ⟨p, built, congrArg Prod.fst both, congrArg Prod.snd both, cells_read_own_iff built⟩

/-- A cell reads its own source where nothing else is asked for under its label. -/
theorem cell_reads_own_of_uncontested (h : Plan.build s name = .ok p) {e : Entity} {c : Cell}
    (uncontested : ∀ item, p.Asks item → item.label = c.label → e.Sources c item.expression) :
    p.ReadsOwn e c := by
  obtain ⟨asked, ⟨derivation⟩⟩ := derivation_of_build h
  refine (derivation.readsOwn_iff e c).mpr fun first found => ?_
  have same : first.label = c.label := by simpa using List.find?_some found
  exact uncontested first ((derivation.asked_iff first).mp (List.mem_of_find?_eq_some found)) same

end Plan
end Orm
