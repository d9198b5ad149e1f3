import Orm.Proofs.Sql.Lexing
import Orm.Statement

/-!
# `Proofs.Statement.Names` — the names that a statement writes

A statement is read again after its names have been written into it. A name does no harm when the
reader finds neither marker nor reference in it as it is written and leaves it with nothing open. It
is then *inert*: it is read as itself wherever nothing is open before it.

What a plan has written consists of names and of fixed words, so all of it is inert when the names
are.

## Contents
- **Inert texts.** `Lexeme.isText`, `Inert`, `inert_append`, `inert_joinWith`, `inert_of_isPlain`,
  `inert_of_all`.
- **Names of a plan.** `Identifier`, `Plan.identifiers`.
- **Written texts.** `inert_columnText`, `inert_tableText`, `inert_joined`, `inert_conditionText`.
- **Characters of names.** `Identifier.forall_mem_text`, `forall_mem_conditionText`,
  `allInert_of_isPlain`.
-/

namespace Orm

open Text Sql Plan

/-! ## Inert texts -/

/-- Whether a lexeme is text: neither marker nor reference. -/
def Sql.Lexeme.isText : Lexeme → Bool
  | .char _ | .literal _ => true
  | _ => false

/-- A text that is read as text and leaves nothing open. -/
def Inert (text : String) : Prop :=
  ∃ ls, Settled text.toList ls ∧ ∀ l ∈ ls, l.isText

instance (text : String) : Decidable (Inert text) :=
  decidable_of_iff ((readFrom .plain text.toList).2 = .plain ∧
    ∀ l ∈ (readFrom .plain text.toList).1, l.isText) <| by
  constructor
  · rintro ⟨plain, isText⟩
    exact ⟨_, Prod.ext rfl plain, isText⟩
  · rintro ⟨ls, settled, isText⟩
    unfold Settled at settled
    rw [settled]
    exact ⟨rfl, isText⟩

/-- Inert texts in a row are inert. -/
theorem inert_append {a b : String} (ha : Inert a) (hb : Inert b) : Inert (a ++ b) := by
  obtain ⟨la, settledA, textA⟩ := ha
  obtain ⟨lb, settledB, textB⟩ := hb
  refine ⟨la ++ lb, ?_, ?_⟩
  · rw [String.toList_append]
    exact settledA.append settledB
  · intro l hl
    exact (List.mem_append.mp hl).elim (textA l) (textB l)

/-- Plain characters are inert. -/
theorem inert_of_isPlain {text : String} (h : ∀ c ∈ text.toList, isPlain c) : Inert text := by
  refine ⟨text.toList.map .char, Settled.of_isPlain h, ?_⟩
  intro l hl
  obtain ⟨c, -, rfl⟩ := List.mem_map.mp hl
  rfl

/-- The same for a text that is given: its characters can be looked through. -/
theorem inert_of_all {text : String} (h : text.toList.all isPlain) : Inert text :=
  inert_of_isPlain (List.all_eq_true.mp h)

/-- Inert texts with an inert separator are inert. -/
theorem inert_joinWith {separator : String} {parts : List String} (hs : Inert separator)
    (h : ∀ part ∈ parts, Inert part) : Inert (joinWith separator parts) := by
  induction parts with
  | nil => exact inert_of_isPlain (by simp [joinWith])
  | cons part rest ih =>
    have here : Inert part := h part List.mem_cons_self
    have later := ih fun part hp => h part (List.mem_cons_of_mem _ hp)
    cases rest with
    | nil => exact here
    | cons next more => exact inert_append (inert_append here hs) later

/-! ## Names of a plan -/

/-- A name that a statement writes. -/
inductive Identifier where
  /-- An alias or a label. -/
  | label (path : String)
  | column (name : String)
  | table (name : TableName)
  deriving DecidableEq, Repr

/-- The name as a dialect writes it. -/
def Identifier.text (d : Dialect) : Identifier → String
  | .label path => d.label path
  | .column name => d.name name
  | .table name => d.table name

/-- The names that it is made of. -/
def Identifier.parts : Identifier → List String
  | .label path => [path]
  | .column name => [name]
  | .table name => name.schema.toList ++ [name.name]

namespace Plan

def ColumnRef.identifiers (r : ColumnRef) : List Identifier :=
  [.label r.path, .column r.column]

def Expression.identifiers : Expression → List Identifier
  | .column ref => ref.identifiers
  | .raw _ => []

def SelectItem.identifiers (item : SelectItem) : List Identifier :=
  item.expression.identifiers ++ [.label item.label]

def Condition.identifiers : Condition → List Identifier
  | .columns pairs => pairs.flatMap fun p => p.1.identifiers ++ p.2.identifiers
  | .raw _ => []

def Join.identifiers (j : Join) : List Identifier :=
  j.condition.identifiers ++ j.restriction.toList.flatMap (·.column.identifiers)

def Alias.identifiers (a : Alias) : List Identifier :=
  [.table a.table, .label a.path] ++ a.join.toList.flatMap (·.identifiers)

end Plan

/-- The names in the statement of a plan, raw texts apart. -/
def Plan.identifiers (p : Plan) : List Identifier :=
  p.select.flatMap (·.identifiers) ++ p.aliases.flatMap (·.identifiers) ++
    p.restriction.toList.flatMap (·.column.identifiers) ++ p.groupBy.flatMap (·.identifiers)

/-! ## Written texts -/

section

variable {d : Dialect}

/-- Names that are inert as the dialect writes them. -/
def AllInert (d : Dialect) (names : List Identifier) : Prop :=
  ∀ i ∈ names, Inert (i.text d)

instance (names : List Identifier) : Decidable (AllInert d names) :=
  inferInstanceAs (Decidable (∀ i ∈ names, Inert (i.text d)))

theorem allInert_append {a b : List Identifier} :
    AllInert d (a ++ b) ↔ AllInert d a ∧ AllInert d b := by
  simp only [AllInert, List.mem_append, or_imp, forall_and]

theorem allInert_flatMap {α : Type} {items : List α} {f : α → List Identifier} :
    AllInert d (items.flatMap f) ↔ ∀ item ∈ items, AllInert d (f item) := by
  simp only [AllInert, List.mem_flatMap]
  constructor
  · intro h item hitem i hi
    exact h i ⟨item, hitem, hi⟩
  · rintro h i ⟨item, hitem, hi⟩
    exact h item hitem i hi

theorem inert_columnText {r : ColumnRef} (h : AllInert d r.identifiers) :
    Inert (columnText d r) := by
  have label : Inert (d.label r.path) := h (.label r.path) (by simp [ColumnRef.identifiers])
  have column : Inert (d.name r.column) := h (.column r.column) (by simp [ColumnRef.identifiers])
  exact inert_append (inert_append label (inert_of_all (by decide))) column

theorem inert_tableText {a : Alias} (h : AllInert d a.identifiers) : Inert (tableText d a) := by
  have table : Inert (d.table a.table) := h (.table a.table) (by simp [Alias.identifiers])
  have label : Inert (d.label a.path) := h (.label a.path) (by simp [Alias.identifiers])
  exact inert_append (inert_append table (inert_of_all (by decide))) label

/-- A join up to its condition. -/
theorem inert_joined {a : Alias} (h : AllInert d a.identifiers) (type : JoinType) :
    Inert (type.keyword ++ " " ++ tableText d a ++ " ON ") := by
  have keyword : Inert type.keyword := by
    cases type <;> exact inert_of_all (by decide)
  exact inert_append (inert_append (inert_append keyword (inert_of_all (by decide)))
    (inert_tableText h)) (inert_of_all (by decide))

/-- Columns that are compared. -/
theorem inert_conditionText {pairs : List (ColumnRef × ColumnRef)}
    (h : AllInert d (Condition.columns pairs).identifiers) :
    Inert (conditionText d (.columns pairs)) := by
  apply inert_joinWith (inert_of_all (by decide))
  intro part hpart
  obtain ⟨pair, hpair, rfl⟩ := List.mem_map.mp hpart
  have both := allInert_append.mp (allInert_flatMap.mp h pair hpair)
  exact inert_append (inert_append (inert_columnText both.1) (inert_of_all (by decide)))
    (inert_columnText both.2)

/-! ## Characters of names -/

section

variable {P : Char → Prop}

/-- Quoting adds nothing but quotes. -/
theorem forall_mem_quoted {name : String} (quote : P d.quote) (h : ∀ c ∈ name.toList, P c) :
    ∀ c ∈ (d.quoted name).toList, P c := by
  have twice : ∀ c ∈ doubled d.quote name.toList, P c := by
    intro c hc
    obtain ⟨c', hc', written⟩ := List.mem_flatMap.mp hc
    have same : c = c' := by
      split at written <;> simpa using written
    exact same ▸ h c' hc'
  intro c hc
  rw [Dialect.quoted, String.toList_ofList, quoteChars] at hc
  rcases List.mem_append.mp hc with front | last
  · rcases List.mem_cons.mp front with rfl | inner
    · exact quote
    · exact twice c inner
  · rw [List.mem_singleton.mp last]
    exact quote

theorem forall_mem_name {name : String} (quote : P d.quote) (h : ∀ c ∈ name.toList, P c) :
    ∀ c ∈ (d.name name).toList, P c := by
  unfold Dialect.name
  split
  · exact forall_mem_quoted quote h
  · exact h

/-- Texts with a point between them. -/
theorem forall_mem_point {a b : String} (point : P '.') (ha : ∀ c ∈ a.toList, P c)
    (hb : ∀ c ∈ b.toList, P c) : ∀ c ∈ (a ++ "." ++ b).toList, P c := by
  simp only [String.toList_append, List.mem_append]
  rintro c ((hc | hc) | hc)
  · exact ha c hc
  · rw [List.mem_singleton.mp hc]
    exact point
  · exact hb c hc

/-- **A name is written with the characters of its parts**, the quote and the point. -/
theorem Identifier.forall_mem_text {i : Identifier} (quote : P d.quote) (point : P '.')
    (h : ∀ part ∈ i.parts, ∀ c ∈ part.toList, P c) : ∀ c ∈ (i.text d).toList, P c := by
  cases i with
  | label path => exact forall_mem_quoted quote (h path (by simp [Identifier.parts]))
  | column name => exact forall_mem_name quote (h name (by simp [Identifier.parts]))
  | table t =>
    have own := forall_mem_name quote (h t.name (by simp [Identifier.parts]))
    simp only [Identifier.text, Dialect.table]
    split
    · next schema hs _ =>
      exact forall_mem_point point
        (forall_mem_name quote (h schema (by simp [Identifier.parts, hs]))) own
    · exact own

theorem forall_mem_joinWith {separator : String} {parts : List String}
    (hs : ∀ c ∈ separator.toList, P c) (h : ∀ part ∈ parts, ∀ c ∈ part.toList, P c) :
    ∀ c ∈ (joinWith separator parts).toList, P c := by
  induction parts with
  | nil => simp [joinWith]
  | cons part rest ih =>
    have here := h part List.mem_cons_self
    have later := ih fun part hp => h part (List.mem_cons_of_mem _ hp)
    cases rest with
    | nil => exact here
    | cons next more =>
      simp only [joinWith, String.toList_append, List.mem_append]
      rintro c ((hc | hc) | hc)
      · exact here c hc
      · exact hs c hc
      · exact later c hc

/-- The characters of columns that are compared. -/
theorem forall_mem_conditionText {pairs : List (ColumnRef × ColumnRef)} (quote : P d.quote)
    (words : ∀ c ∈ ['.', ' ', '=', 'A', 'N', 'D'], P c)
    (h : ∀ pair ∈ pairs, ∀ r ∈ [pair.1, pair.2],
      (∀ c ∈ r.path.toList, P c) ∧ ∀ c ∈ r.column.toList, P c) :
    ∀ c ∈ (conditionText d (.columns pairs)).toList, P c := by
  have column : ∀ pair ∈ pairs, ∀ r ∈ [pair.1, pair.2], ∀ c ∈ (columnText d r).toList, P c := by
    intro pair hp r hr
    obtain ⟨path, name⟩ := h pair hp r hr
    exact forall_mem_point (words '.' (by simp)) (forall_mem_quoted quote path)
      (forall_mem_name quote name)
  have word : ∀ text : String, text.toList.all ['.', ' ', '=', 'A', 'N', 'D'].contains →
      ∀ c ∈ text.toList, P c := fun text among c hc =>
    words c (List.contains_iff_mem.mp (List.all_eq_true.mp among c hc))
  refine forall_mem_joinWith (word " AND " (by decide)) fun part hpart => ?_
  obtain ⟨pair, hp, rfl⟩ := List.mem_map.mp hpart
  simp only [String.toList_append, List.mem_append]
  rintro c ((hc | hc) | hc)
  · exact column pair hp pair.1 (by simp) c hc
  · exact word " = " (by decide) c hc
  · exact column pair hp pair.2 (by simp) c hc

end

/-- Plain names are inert in a dialect with a plain quote. -/
theorem allInert_of_isPlain {names : List Identifier} (quote : isPlain d.quote)
    (h : ∀ i ∈ names, ∀ part ∈ i.parts, ∀ c ∈ part.toList, isPlain c) : AllInert d names :=
  fun i hi => inert_of_isPlain (i.forall_mem_text quote (by decide) (h i hi))

end

end Orm
