import Orm.Proofs.Plan.Conditions
import Orm.Proofs.Plan.JoinOrder
import Orm.Proofs.Sql.Tokens
import Orm.Proofs.Statement.Parameters

/-!
# `Proofs.Statement.WrittenOut` — inferred conditions written out

What a relation is joined on is inferred from keys, or a field declares it with references. An inferred
condition compares columns, so it can be written out as a text that refers to them by the short names
of its tables. The text joins the same tables as the condition does, if each of its references means
the column that it was written for.

The short names stand for whole entities. A column that no field is stored in is taken from the main
table of the entity, and a column of another level is found by the field of its name only.

## Contents
- **Texts.** `columnReference`, `writtenOut`, `settled_writtenOut`.
- **Anchoring.** `rebaseName_column`, `resolveText_writtenOut`.
- **Columns that are meant.** `Plan.tableOf`, `Plan.Stands`, `Plan.Meant`.
- **Plans with other conditions.** `resolve?_of_given`, `resolveText_of_given`.
- **Inferred conditions.** `inert_columns`, `unreferenced_columns`, `resolveText_columns`.
- **The theorem.** `Schema.onClauses`, `Plan.writtenOut_same`.
-/

namespace Orm

open Text Sql Plan Schema

/-! ## Texts -/

/-- A reference to a column of a table under a short name. -/
def columnReference (head column : String) : String :=
  "\x7b" ++ (head ++ "." ++ column) ++ "\x7d"

/-- The short name of what the target of a relation is compared with: the link table where there is
one, and else the owner. -/
def partnerName (f : FieldModel) : String :=
  if relationKind f = .toManyLinked then "linktable" else "this"

/-- Two columns compared, under short names. -/
def comparison (f : FieldModel) (pair : ColumnRef × ColumnRef) : String :=
  columnReference f.name pair.1.column ++ " = " ++ columnReference (partnerName f) pair.2.column

/-- A condition of columns written out. -/
def writtenOut (f : FieldModel) (pairs : List (ColumnRef × ColumnRef)) : String :=
  joinWith " AND " (pairs.map (comparison f))

/-- What the lexemes of a comparison are. -/
def comparisonLexemes (f : FieldModel) (pair : ColumnRef × ColumnRef) : List Lexeme :=
  .reference (f.name ++ "." ++ pair.1.column).toList :: (" = ".toList.map .char ++
    [.reference (partnerName f ++ "." ++ pair.2.column).toList])

def writtenLexemes (f : FieldModel) : List (ColumnRef × ColumnRef) → List Lexeme
  | [] => []
  | [pair] => comparisonLexemes f pair
  | pair :: next :: rest =>
    comparisonLexemes f pair ++ (" AND ".toList.map .char ++ writtenLexemes f (next :: rest))

section

variable {f : FieldModel}

/-- A column of a path is a path. -/
theorem isPath_point {path column : String} (hp : isPath path.toList) (hc : isName column.toList) :
    isPath (path ++ "." ++ column).toList := by
  rw [toList_point, isPath_append_point, hp, isPath_of_isName hc]
  rfl

theorem settled_columnReference {head column : String} (hh : isName head.toList)
    (hc : isName column.toList) :
    Settled (columnReference head column).toList [.reference (head ++ "." ++ column).toList] := by
  have text : (columnReference head column).toList =
      (Lexeme.reference (head ++ "." ++ column).toList).chars := by
    simp [columnReference, Lexeme.chars]
  rw [text]
  exact Settled.reference (isPath_point (isPath_of_isName hh) hc)

theorem isName_partnerName (f : FieldModel) : isName (partnerName f).toList := by
  unfold partnerName
  split_ifs <;> decide

theorem settled_comparison (name : isName f.name.toList) {pair : ColumnRef × ColumnRef}
    (names : isName pair.1.column.toList ∧ isName pair.2.column.toList) :
    Settled (comparison f pair).toList (comparisonLexemes f pair) := by
  have equals : Settled " = ".toList (" = ".toList.map .char) :=
    .of_isPlain (List.all_eq_true.mp (by decide))
  have both := ((settled_columnReference name names.1).append equals).append
    (settled_columnReference (isName_partnerName f) names.2)
  simpa [comparison, comparisonLexemes, String.toList_append] using both

/-- A condition that is written out leaves nothing open. -/
theorem settled_writtenOut (name : isName f.name.toList) {pairs : List (ColumnRef × ColumnRef)}
    (names : ∀ pair ∈ pairs, isName pair.1.column.toList ∧ isName pair.2.column.toList) :
    Settled (writtenOut f pairs).toList (writtenLexemes f pairs) := by
  induction pairs with
  | nil => exact .nil
  | cons pair rest ih =>
    have here := settled_comparison name (names pair List.mem_cons_self)
    have later := ih fun other ho => names other (List.mem_cons_of_mem _ ho)
    cases rest with
    | nil => exact here
    | cons next more =>
      have and : Settled " AND ".toList (" AND ".toList.map .char) :=
        .of_isPlain (List.all_eq_true.mp (by decide))
      have all := here.append (and.append later)
      simpa [writtenOut, writtenLexemes, joinWith, String.toList_append] using all

/-- What a condition that is written out refers to. -/
theorem mem_writtenLexemes {pairs : List (ColumnRef × ColumnRef)} {n : List Char}
    (h : .reference n ∈ writtenLexemes f pairs) : ∃ pair ∈ pairs,
      n = (f.name ++ "." ++ pair.1.column).toList ∨
        n = (partnerName f ++ "." ++ pair.2.column).toList := by
  have one : ∀ pair, .reference n ∈ comparisonLexemes f pair →
      n = (f.name ++ "." ++ pair.1.column).toList ∨
        n = (partnerName f ++ "." ++ pair.2.column).toList := by
    intro pair hn
    simpa [comparisonLexemes] using hn
  induction pairs with
  | nil => cases h
  | cons pair rest ih =>
    cases rest with
    | nil => exact ⟨pair, List.mem_cons_self, one pair h⟩
    | cons next more =>
      rcases List.mem_append.mp h with here | later
      · exact ⟨pair, List.mem_cons_self, one pair here⟩
      · obtain ⟨other, ho, found⟩ := ih (by simpa using later)
        exact ⟨other, List.mem_cons_of_mem _ ho, found⟩

/-- What stands for the references of a condition is what its columns are compared by. -/
theorem replacedText_writtenLexemes {text : ColumnRef → String} {g : List Char → List Char}
    {pairs : List (ColumnRef × ColumnRef)}
    (h : ∀ pair ∈ pairs, g (f.name ++ "." ++ pair.1.column).toList = (text pair.1).toList ∧
      g (partnerName f ++ "." ++ pair.2.column).toList = (text pair.2).toList) :
    replacedText g (writtenLexemes f pairs) =
      (joinWith " AND " (pairs.map fun pair => text pair.1 ++ " = " ++ text pair.2)).toList := by
  have one : ∀ pair ∈ pairs, replacedText g (comparisonLexemes f pair) =
      (text pair.1 ++ " = " ++ text pair.2).toList := by
    intro pair hp
    obtain ⟨first, second⟩ := h pair hp
    simp only [comparisonLexemes, replacedText, replaced_reference, replaced_append, first, second]
    simp [replaced, Lexeme.chars, String.toList_append]
  induction pairs with
  | nil => rfl
  | cons pair rest ih =>
    have here := one pair List.mem_cons_self
    have later := ih (fun other ho => h other (List.mem_cons_of_mem _ ho))
      fun other ho => one other (List.mem_cons_of_mem _ ho)
    cases rest with
    | nil => exact here
    | cons next more =>
      simp only [writtenLexemes, replacedText, replaced_append] at here later ⊢
      rw [here, later]
      simp [replaced, Lexeme.chars, joinWith, String.toList_append]

end

/-! ## Anchoring -/

theorem not_mem_of_isName {name : List Char} (h : isName name) : '.' ∉ name := by
  intro point
  cases name with
  | nil => cases h
  | cons c rest =>
    simp only [isName, Bool.and_eq_true, List.all_eq_true] at h
    rcases List.mem_cons.mp point with rfl | later
    · exact absurd h.1 (by decide)
    · exact absurd (h.2 '.' later) (by decide)

/-- A path takes the place of the short name before a column. -/
theorem rebaseName_column {heads : List (String × String)} {head path column : String}
    (name : isName head.toList) (stands : heads.lookup head = some path) :
    rebaseName heads (head ++ "." ++ column) = path ++ "." ++ column := by
  have cut : cutAt '.' (head ++ "." ++ column).toList = some (head.toList, column.toList) := by
    rw [toList_point]
    exact cutAt_append (not_mem_of_isName name)
  unfold rebaseName
  rw [cut]
  simp [stands]

theorem targetChars_column {p : Plan} {d : Dialect} {name path column : String}
    (h : p.resolve? name = some (.column path column)) :
    p.targetChars d name.toList = (columnText d ⟨path, column⟩).toList := by
  unfold Plan.targetChars
  rw [String.ofList_toList, h]
  rfl

/-- **A condition that is written out resolves to its columns** if its references stand for them. -/
theorem resolveText_writtenOut {p : Plan} {d : Dialect} {f : FieldModel}
    {pairs : List (ColumnRef × ColumnRef)} {heads : List (String × String)} {raw own partner : String}
    (name : isName f.name.toList)
    (names : ∀ pair ∈ pairs, isName pair.1.column.toList ∧ isName pair.2.column.toList)
    (made : rebase heads (writtenOut f pairs) = .ok raw) (own_head : heads.lookup f.name = some own)
    (partner_head : heads.lookup (partnerName f) = some partner)
    (paths : isPath own.toList ∧ isPath partner.toList)
    (stand : ∀ pair ∈ pairs,
      p.resolve? (own ++ "." ++ pair.1.column) = some (.column pair.1.path pair.1.column) ∧
        p.resolve? (partner ++ "." ++ pair.2.column) = some (.column pair.2.path pair.2.column)) :
    p.resolveText d raw = .ok (conditionText d (.columns pairs)) := by
  have read := (settled_writtenOut name names).lexemes
  -- What the two sides of a comparison are anchored to.
  have first : ∀ column, anchoredName heads (f.name ++ "." ++ column).toList =
      (own ++ "." ++ column).toList := by
    intro column
    unfold anchoredName
    rw [String.ofList_toList, rebaseName_column name own_head]
  have second : ∀ column, anchoredName heads (partnerName f ++ "." ++ column).toList =
      (partner ++ "." ++ column).toList := by
    intro column
    unfold anchoredName
    rw [String.ofList_toList, rebaseName_column (isName_partnerName f) partner_head]
  have anchored : ∀ n, .reference n ∈ writtenLexemes f pairs → isPath (anchoredName heads n) := by
    intro n hn
    obtain ⟨pair, hp, rfl | rfl⟩ := mem_writtenLexemes hn
    · rw [first]
      exact isPath_point paths.1 (names pair hp).1
    · rw [second]
      exact isPath_point paths.2 (names pair hp).2
  -- The anchored references are those that are known to stand for the columns.
  have known : ∀ n, .reference n ∈ renamed heads (writtenLexemes f pairs) →
      (p.resolve? (String.ofList n)).isSome := by
    intro n hn
    obtain ⟨m, hm, rfl⟩ := mem_renamed.mp hn
    obtain ⟨pair, hp, rfl | rfl⟩ := mem_writtenLexemes hm
    · rw [first, String.ofList_toList, (stand pair hp).1]
      rfl
    · rw [second, String.ofList_toList, (stand pair hp).2]
      rfl
  rw [resolveText_eq ((lexemes_rebase_iff read made).mpr anchored) known, renamed, replacedText,
    replaced_rename]
  refine congrArg Except.ok (String.toList_inj.mp ?_)
  rw [String.toList_ofList]
  refine replacedText_writtenLexemes ?_
  intro pair hp
  obtain ⟨one, two⟩ := stand pair hp
  constructor
  · rw [first]
    exact targetChars_column one
  · rw [second]
    exact targetChars_column two

/-! ## Columns that are meant -/

namespace Plan

variable {p : Plan}

/-- The table of an entity that a field is looked up in: the first that stores it, the main table
before the others, or the main table if none does. -/
def tableOf (p : Plan) (e : Alias) (fieldPath : String) : Alias :=
  ((e :: e.levels.filterMap p.find?).find? fun b => (b.column? fieldPath).isSome).getD e

/-- A reference to a column, under the name of an alias, stands for that column of a table. -/
structure Stands (p : Plan) (e : Alias) (column path : String) : Prop where
  /-- The reference does not spell an alias. -/
  free : p.find? (e.path ++ "." ++ column) = none
  table : (p.tableOf e column).path = path
  /-- A field of that name has the column of that name. -/
  own : ((p.tableOf e column).column? column).getD column = column

/-- Whether an alias stands for a table: it is its own, or that of its entity. -/
def Alias.holds (e : Alias) (path : String) : Bool :=
  e.homes.contains (e.path, path)

/-- A reference to a column means that column. -/
structure Meant (p : Plan) (r : ColumnRef) : Prop where
  name : isName r.column.toList
  stands : ∀ e ∈ p.aliases, e.holds r.path → p.Stands e r.column r.path

instance (e : Alias) (column path : String) : Decidable (p.Stands e column path) :=
  decidable_of_iff (p.find? (e.path ++ "." ++ column) = none ∧ (p.tableOf e column).path = path ∧
      ((p.tableOf e column).column? column).getD column = column)
    ⟨fun h => ⟨h.1, h.2.1, h.2.2⟩, fun h => ⟨h.free, h.table, h.own⟩⟩

instance (r : ColumnRef) : Decidable (p.Meant r) :=
  decidable_of_iff (isName r.column.toList ∧
      ∀ e ∈ p.aliases, e.holds r.path → p.Stands e r.column r.path)
    ⟨fun h => ⟨h.1, h.2⟩, fun h => ⟨h.name, h.stands⟩⟩

/-- The other levels are searched in order. -/
theorem findSome?_levels (levels : List String) (fieldPath : String) :
    (levels.findSome? fun level =>
      (p.find? level).bind fun other => (other.column? fieldPath).map (Target.column level)) =
    ((levels.filterMap p.find?).find? fun b => (b.column? fieldPath).isSome).bind fun b =>
      (b.column? fieldPath).map (Target.column b.path) := by
  induction levels with
  | nil => rfl
  | cons level rest ih =>
    rw [List.findSome?_cons]
    cases found : p.find? level with
    | none => simpa [found] using ih
    | some b =>
      obtain ⟨-, rfl⟩ := path_of_find? found
      cases stored : b.column? fieldPath with
      | none => simpa [found, stored] using ih
      | some column => simp [found, stored]

theorem mem_tableOf {e : Alias} (he : e ∈ p.aliases) (fieldPath : String) :
    p.tableOf e fieldPath ∈ p.aliases := by
  unfold tableOf
  cases found : (e :: e.levels.filterMap p.find?).find? fun b => (b.column? fieldPath).isSome with
  | none => exact he
  | some b =>
    rcases List.mem_cons.mp (List.mem_of_find?_eq_some found) with rfl | level
    · exact he
    · obtain ⟨path, -, there⟩ := List.mem_filterMap.mp level
      exact (path_of_find? there).1

/-- **What a reference to a column stands for.** -/
theorem resolve?_of_stands {e : Alias} {column path : String} (found : p.find? e.path = some e)
    (name : isName column.toList) (h : p.Stands e column path) :
    p.resolve? (e.path ++ "." ++ column) = some (.column path column) := by
  -- The last point is the one behind the path, since a name has none; that split is tried first.
  obtain ⟨earlier, splits⟩ := splitsAt_append '.' e.path.toList column.toList
  rw [splitsAt_eq_nil (not_mem_of_isName name)] at splits
  have last : (splitsAt '.' (e.path ++ "." ++ column).toList).reverse =
      (e.path.toList, column.toList) :: earlier.reverse := by
    rw [toList_point, splits, List.reverse_append]
    rfl
  unfold resolve?
  rw [h.free, last]
  simp only [resolveSplit?, String.ofList_toList, found]
  have noPoint : column.toList.contains '.' = false := by
    simpa using not_mem_of_isName name
  obtain ⟨-, table, own⟩ := h
  unfold fieldTarget? columnOf?
  rw [String.ofList_toList, noPoint, findSome?_levels]
  unfold tableOf at table own
  -- A field is looked for in the table itself and then in the other levels, as `tableOf` does.
  cases stored : e.column? column with
  | some c =>
    simp only [List.find?_cons, stored, Option.isSome_some, Option.getD_some] at table own
    simp [table, own]
  | none =>
    simp only [List.find?_cons, stored, Option.isSome_none] at table own
    cases other : (e.levels.filterMap p.find?).find? fun b => (b.column? column).isSome with
    | none =>
      rw [other] at table
      have table : e.path = path := table
      simp [table]
    | some b =>
      have stores : (b.column? column).isSome :=
        List.find?_some (p := fun b : Alias => (b.column? column).isSome) other
      obtain ⟨c, has⟩ := Option.isSome_iff_exists.mp stores
      simp only [other, Option.getD_some, has] at table own
      simp [has, table, own]

/-! ## Plans with other conditions -/

section

variable {g : Conditions} {hs : List (String × String)} {p' : Plan}

/-- The same paths are taken. -/
theorem find?_of_given (h : Given g p p') (path : String) :
    (p.find? path = none ∧ p'.find? path = none) ∨ ∃ a b, p.find? path = some a ∧
      p'.find? path = some b ∧ AliasGiven g (homes p.aliases) a b := by
  have search : ∀ {as bs : List Alias}, List.Forall₂ (AliasGiven g (homes p.aliases)) as bs →
      (as.find? (·.path == path) = none ∧ bs.find? (·.path == path) = none) ∨
        ∃ a b, as.find? (·.path == path) = some a ∧ bs.find? (·.path == path) = some b ∧
          AliasGiven g (homes p.aliases) a b := by
    intro as bs both
    induction both with
    | nil => exact .inl ⟨rfl, rfl⟩
    | @cons a b as bs first _ ih =>
      by_cases here : a.path = path
      · refine .inr ⟨a, b, ?_, ?_, first⟩
        · simp [here]
        · simp [first.path, here]
      · simpa [here, first.path] using ih
  exact search h.aliases

theorem columnOf?_of_given (h : Given g p p') {a b : Alias} (same : AliasGiven g hs a b)
    (fieldPath : String) : p'.columnOf? b fieldPath = p.columnOf? a fieldPath := by
  have stored : ∀ {hs} {a b : Alias}, AliasGiven g hs a b → b.column? fieldPath = a.column? fieldPath :=
    fun both => congrArg (·.lookup fieldPath) both.columns
  have levels : ∀ level, (p'.find? level).bind (fun other =>
        (other.column? fieldPath).map (Target.column level)) =
      (p.find? level).bind fun other => (other.column? fieldPath).map (Target.column level) := by
    intro level
    rcases find?_of_given h level with ⟨none, none'⟩ | ⟨c, c', found, found', both⟩
    · rw [none, none']
    · rw [found, found', Option.bind_some, Option.bind_some, stored both]
  unfold columnOf?
  rw [stored same, same.levels, same.path]
  simp only [levels]

/-- **References stand for the same in a plan with other conditions.** -/
theorem resolve?_of_given (h : Given g p p') (name : String) : p'.resolve? name = p.resolve? name := by
  have splits : ∀ ss, p'.resolveSplit? ss = p.resolveSplit? ss := by
    intro ss
    induction ss with
    | nil => rfl
    | cons split more ih =>
      obtain ⟨front, rest⟩ := split
      unfold resolveSplit?
      rcases find?_of_given h (String.ofList front) with ⟨none, none'⟩ | ⟨a, b, found, found', both⟩
      · rw [none, none']
        exact ih
      · rw [found, found']
        simp only [fieldTarget?, columnOf?_of_given h both, both.path]
  unfold resolve?
  rcases find?_of_given h name with ⟨none, none'⟩ | ⟨a, b, found, found', -⟩
  · rw [none, none']
    exact splits _
  · rw [found, found']

theorem resolveText_of_given (h : Given g p p') (d : Dialect) (text : String) :
    p'.resolveText d text = p.resolveText d text := by
  have references : p'.referenceText d = p.referenceText d := by
    funext name
    unfold referenceText
    rw [resolve?_of_given h]
  unfold resolveText
  rw [references]

end

/-! ## Inferred conditions -/

/-- A text without references is resolved to itself. -/
theorem resolveText_of_unreferenced {p : Plan} {d : Dialect} {text : String} {ls : List Lexeme}
    (read : lexemes text.toList = .ok ls) (none : ∀ n, .reference n ∉ ls) :
    p.resolveText d text = .ok text := by
  rw [resolveText_eq read fun n hn => absurd hn (none n), replacedText, replaced_eq_flatMap none,
    ← textOf, textOf_lexemes read, String.ofList_toList]

/-- A path between single quotes is a literal. -/
theorem inert_quoted {d : Dialect} (quote : d.quote = '\x27') {name : String}
    (path : isPath name.toList) : Inert (d.quoted name) := by
  have apart : ∀ c ∈ name.toList, c ≠ '\x27' ∧ c ≠ '\\' := by
    intro c hc
    rcases isNameChar_or_point path c hc with name | rfl
    · constructor <;> rintro rfl <;> cases name
    · decide
  have settled : Settled (d.quoted name).toList (Grammar.Token.literal name.toList).lexemes := by
    rw [Dialect.quoted, String.toList_ofList, quoteChars, quote,
      doubled_of_not_mem fun mem => (apart _ mem).1 rfl]
    exact (Grammar.IsBody.of_forall apart).settled
  refine ⟨_, settled, fun l hl => ?_⟩
  obtain rfl := List.mem_singleton.mp hl
  rfl

/-- Columns that are compared are named by paths. -/
def NamedByPaths (pairs : List (ColumnRef × ColumnRef)) : Prop :=
  ∀ pair ∈ pairs, ∀ r ∈ [pair.1, pair.2], isPath r.path.toList ∧ isPath r.column.toList

/-- Between single quotes the names of compared columns are literals. -/
theorem inert_columns {d : Dialect} (quote : d.quote = '\x27') {pairs : List (ColumnRef × ColumnRef)}
    (named : NamedByPaths pairs) : Inert (conditionText d (.columns pairs)) := by
  have column : ∀ r : ColumnRef, isPath r.path.toList ∧ isPath r.column.toList →
      AllInert d r.identifiers := by
    rintro r ⟨path, name⟩ i hi
    rcases List.mem_cons.mp hi with rfl | last
    · exact inert_quoted quote path
    · obtain rfl := List.mem_singleton.mp last
      show Inert (d.name r.column)
      unfold Dialect.name
      split
      · exact inert_quoted quote name
      · exact inert_of_isPlain (isPlain_of_isPath name)
  refine inert_conditionText (allInert_flatMap.mpr fun pair hp => allInert_append.mpr ⟨?_, ?_⟩)
  · exact column _ (named pair hp pair.1 (by simp))
  · exact column _ (named pair hp pair.2 (by simp))

/-- Without single quotes compared columns hold no literal, and of the two braces the quote is one at
most. So they hold no reference. -/
theorem unreferenced_columns {d : Dialect} (quote : d.quote ≠ '\x27')
    {pairs : List (ColumnRef × ColumnRef)} (named : NamedByPaths pairs) :
    ∃ ls, lexemes (conditionText d (.columns pairs)).toList = .ok ls ∧ ∀ n, .reference n ∉ ls := by
  obtain ⟨brace, isBrace, other⟩ : ∃ brace, (brace = '{' ∨ brace = '}') ∧ d.quote ≠ brace := by
    by_cases opens : d.quote = '{'
    · exact ⟨'}', .inr rfl, opens ▸ by decide⟩
    · exact ⟨'{', .inl rfl, opens⟩
  have words : ∀ c ∈ ['.', ' ', '=', 'A', 'N', 'D'], c ≠ '\x27' ∧ c ≠ brace := by
    rcases isBrace with rfl | rfl <;> simp
  have noName : isNameChar brace = false := by
    rcases isBrace with rfl | rfl <;> rfl
  have ofPath : ∀ text : List Char, isPath text → ∀ c ∈ text, c ≠ '\x27' ∧ c ≠ brace := by
    intro text path c hc
    rcases isNameChar_or_point path c hc with name | rfl
    · constructor <;> rintro rfl
      · cases name
      · cases noName.symm.trans name
    · exact words '.' (by simp)
  have free := forall_mem_conditionText (d := d) ⟨quote, other⟩ words fun pair hp r hr =>
    ⟨ofPath _ (named pair hp r hr).1, ofPath _ (named pair hp r hr).2⟩
  obtain ⟨ls, read⟩ := exists_lexemes fun mem => (free _ mem).1 rfl
  refine ⟨ls, read, fun n hn => ?_⟩
  obtain ⟨opens, closes⟩ := braces_of_reference read hn
  rcases isBrace with rfl | rfl
  · exact (free _ opens).2 rfl
  · exact (free _ closes).2 rfl

/-- **Compared columns are resolved to themselves**, whatever the names are quoted with. -/
theorem resolveText_columns {p : Plan} (d : Dialect) {pairs : List (ColumnRef × ColumnRef)}
    (named : NamedByPaths pairs) :
    p.resolveText d (conditionText d (.columns pairs)) = .ok (conditionText d (.columns pairs)) := by
  by_cases quote : d.quote = '\x27'
  · obtain ⟨ls, settled, isText⟩ := inert_columns quote named
    exact resolveText_of_unreferenced settled.lexemes fun n hn => nomatch isText _ hn
  · obtain ⟨ls, read, none⟩ := unreferenced_columns quote named
    exact resolveText_of_unreferenced read none

end Plan

/-! ## The theorem -/

/-- The condition of one field. -/
def Schema.Conditions.only (owner name text : String) : Conditions := fun o n =>
  if o = owner ∧ n = name then some text else none

/-- The clause that joins the table under a path, as a statement renders it: where its condition is
inferred, and where the field declares that condition, written out. -/
def Schema.onClauses (s : Schema) (type path : String) (d : Dialect) : Option (String × String) := do
  let p ← (Plan.build s type).toOption
  let a ← p.find? path
  let (f, _) ← a.relation
  let join ← a.join
  match join.condition with
  | .raw _ => none
  | .columns pairs =>
    let p' ← (Plan.build ((Conditions.only f.owner f.name (writtenOut f pairs)).schema s) type).toOption
    let a' ← p'.find? path
    let join' ← a'.join
    let inferred ← (p.resolveText d (conditionText d join.condition)).toOption
    let declared ← (p'.resolveText d (conditionText d join'.condition)).toOption
    return (inferred, declared)

namespace Plan

/-- What an inferred condition compares: a column of the target's table with one of the table that
it hangs off. -/
theorem pairs_of_inferredCondition {scope : Scope} {f : FieldModel} {target : TypeModel}
    {table childPath : String} {pairs : List (ColumnRef × ColumnRef)}
    (h : inferredCondition scope f target table childPath = .ok (.columns pairs)) :
    ∃ own partner, pairs = [(⟨childPath, own⟩,
      ⟨if relationKind f = .toManyLinked then linkPath childPath else scope.levelAlias, partner⟩)] := by
  unfold inferredCondition at h
  split at h
  all_goals
    next kind =>
    obtain ⟨id, -, result⟩ := ok_bind.mp h
    cases result
    rw [kind]
    exact ⟨_, _, rfl⟩

theorem exists_of_mem_homes {aliases : List Alias} {path table : String}
    (h : (path, table) ∈ homes aliases) : ∃ e ∈ aliases, e.path = path ∧ e.holds table := by
  obtain ⟨e, he, mem⟩ := List.mem_flatMap.mp h
  -- An alias stands for tables after its own path only.
  have own : e.path = path := by
    unfold Alias.homes at mem
    split at mem
    · cases mem
    · obtain ⟨t, -, same⟩ := List.mem_map.mp mem
      exact (Prod.mk.inj same).1
  refine ⟨e, he, own, ?_⟩
  unfold Alias.holds
  rw [own]
  exact List.contains_iff_mem.mpr mem

/-- The short names in the condition of a relation. -/
abbrev relationHeads (scope : Scope) (f : FieldModel) (childPath : String) : List (String × String) :=
  [("this", scope.entityPath), ("linktable", linkPath childPath), (f.name, childPath)]

/-- Compared columns have been inferred. -/
theorem inferred_of_relationCondition {scope : Scope} {f : FieldModel} {target : TypeModel}
    {table childPath : String} {pairs : List (ColumnRef × ColumnRef)}
    (h : relationCondition scope f target table childPath = .ok (.columns pairs)) :
    inferredCondition scope f target table childPath = .ok (.columns pairs) := by
  unfold relationCondition at h
  split at h
  · rw [map_eq_pure_bind] at h
    obtain ⟨sql, -, result⟩ := ok_bind.mp h
    cases result
  · exact h

/-- A declared condition is anchored. -/
theorem rebase_of_relationCondition {scope : Scope} {f : FieldModel} {target : TypeModel}
    {table childPath text : String} {c : Condition} (declared : f.joinCondition = some text)
    (h : relationCondition scope f target table childPath = .ok c) :
    ∃ raw, rebase (relationHeads scope f childPath) text = .ok raw ∧ c = .raw raw := by
  unfold relationCondition at h
  rw [declared] at h
  simp only [map_eq_pure_bind] at h
  obtain ⟨raw, made, result⟩ := ok_bind.mp h
  cases result
  exact ⟨raw, made, rfl⟩

theorem lookup_partnerName (scope : Scope) (f : FieldModel) (childPath : String) :
    (relationHeads scope f childPath).lookup (partnerName f) =
      some (if relationKind f = .toManyLinked then linkPath childPath else scope.entityPath) := by
  unfold partnerName
  split_ifs <;> simp [List.lookup_cons]

theorem lookup_name {scope : Scope} {f : FieldModel} {childPath : String}
    (own : f.name ≠ "this" ∧ f.name ≠ "linktable") :
    (relationHeads scope f childPath).lookup f.name = some childPath := by
  have this : (f.name == "this") = false := beq_false_of_ne own.1
  have link : (f.name == "linktable") = false := beq_false_of_ne own.2
  simp [List.lookup_cons, this, link]

/-- **The two conditions of a relation, where they are rendered.** The inferred one is left as it is,
and the one that is written out becomes the same. -/
theorem resolveText_of_place {p : Plan} (alone : ∀ e ∈ p.aliases, p.find? e.path = some e)
    {a : Alias} (placed : a ∈ p.aliases) {type : TypeModel} (entity : a.role = .entity type)
    {scope : Scope} (home : (scope.entityPath, scope.levelAlias) ∈ homes p.aliases) {f : FieldModel}
    (linked : relationKind f = .toManyLinked → (linkPath a.path, linkPath a.path) ∈ homes p.aliases)
    {target : TypeModel} {table : String} {pairs : List (ColumnRef × ColumnRef)}
    (inferred : inferredCondition scope f target table a.path = .ok (.columns pairs)) {raw : String}
    (made : rebase (relationHeads scope f a.path) (writtenOut f pairs) = .ok raw)
    (own : f.name ≠ "this" ∧ f.name ≠ "linktable")
    (names : isName f.name.toList ∧ ∀ b ∈ p.aliases, isPath b.path.toList)
    (meant : ∀ pair ∈ pairs, p.Meant pair.1 ∧ p.Meant pair.2) (d : Dialect) :
    p.resolveText d (conditionText d (.columns pairs)) = .ok (conditionText d (.columns pairs)) ∧
      p.resolveText d raw = .ok (conditionText d (.columns pairs)) := by
  have columns : ∀ pair ∈ pairs, isName pair.1.column.toList ∧ isName pair.2.column.toList :=
    fun pair hp => ⟨(meant pair hp).1.name, (meant pair hp).2.name⟩
  obtain ⟨ownColumn, partnerColumn, rfl⟩ := pairs_of_inferredCondition inferred
  obtain ⟨ownMeant, partnerMeant⟩ := meant _ List.mem_cons_self
  -- The other side of the condition is a table that its short name stands for.
  obtain ⟨e, he, head, holds⟩ : ∃ e ∈ p.aliases,
      e.path = (if relationKind f = .toManyLinked then linkPath a.path else scope.entityPath) ∧
        e.holds (if relationKind f = .toManyLinked then linkPath a.path else scope.levelAlias) := by
    apply exists_of_mem_homes
    split_ifs with kind
    · exact linked kind
    · exact home
  have ownStands := ownMeant.stands a placed (by simp [Alias.holds, Alias.homes, entity])
  have partnerStands := partnerMeant.stands e he holds
  have partnerHead := lookup_partnerName scope f a.path
  rw [← head] at partnerHead
  constructor
  · refine resolveText_columns d fun pair hp r hr => ?_
    obtain rfl := List.mem_singleton.mp hp
    obtain ⟨ownName, partnerName⟩ := columns _ List.mem_cons_self
    rcases List.mem_cons.mp hr with rfl | last
    · exact ⟨names.2 a placed, isPath_of_isName ownName⟩
    · obtain rfl := List.mem_singleton.mp last
      have path := names.2 _ (mem_tableOf he partnerColumn)
      rw [partnerStands.table] at path
      exact ⟨path, isPath_of_isName partnerName⟩
  · refine resolveText_writtenOut names.1 columns made (lookup_name own) partnerHead
      ⟨names.2 a placed, names.2 e he⟩ ?_
    intro pair hp
    obtain rfl := List.mem_singleton.mp hp
    exact ⟨resolve?_of_stands (alone a placed) ownMeant.name ownStands,
      resolve?_of_stands (alone e he) partnerMeant.name partnerStands⟩

/-- **A condition written out joins as the inferred one does.** The clause of a relation whose
condition is inferred is rendered the same when the field declares that condition, written out with
`this`, `linktable` and its own name, if its names are names and every reference means the column
that it was written for. -/
theorem writtenOut_same {s : Schema} {name path : String} {p : Plan}
    (built : Plan.build s name = .ok p) {a : Alias} (found : p.find? path = some a) {f : FieldModel}
    {kind : RelationKind} (relation : a.relation = some (f, kind)) {type : TypeModel}
    (entity : a.role = .entity type) {join : Join} (joined : a.join = some join)
    {pairs : List (ColumnRef × ColumnRef)} (inferred : join.condition = .columns pairs)
    (own : f.name ≠ "this" ∧ f.name ≠ "linktable")
    (names : isName f.name.toList ∧ ∀ b ∈ p.aliases, isPath b.path.toList)
    (meant : ∀ pair ∈ pairs, p.Meant pair.1 ∧ p.Meant pair.2) (d : Dialect) :
    s.onClauses name path d = some (conditionText d join.condition, conditionText d join.condition) := by
  -- The schema that declares the condition differs in this field only, and the text can be read, so
  -- its plan is built in step with the plan that there is.
  have readable : (Conditions.only f.owner f.name (writtenOut f pairs)).Readable := by
    intro owner field text given
    unfold Conditions.only at given
    split_ifs at given
    cases given
    have columns := fun pair hp => And.intro (meant pair hp).1.name (meant pair hp).2.name
    exact ⟨_, (settled_writtenOut names.1 columns).lexemes⟩
  obtain ⟨p', built', both⟩ := build_given built readable
  obtain ⟨placed, rfl⟩ := path_of_find? found
  rcases find?_of_given both a.path with ⟨none, -⟩ | ⟨a₁, a', found₁, found', same⟩
  · rw [none] at found
    cases found
  obtain rfl : a = a₁ := Option.some.inj (found.symm.trans found₁)
  -- Both conditions come from one place, where one is inferred and the other is declared.
  have joins := same.join
  rw [joined] at joins
  generalize joined' : a'.join = j' at joins
  cases joins with
  | same apart =>
    rcases apart with none | link
    · rw [relation] at none
      cases none
    · rw [entity] at link
      cases link
  | @related scope f' _ c c' restriction home linked relation' childPath has given =>
    obtain ⟨rfl, -⟩ := Prod.mk.inj (Option.some.inj (relation.symm.trans relation'))
    have columns : c = .columns pairs := inferred
    subst columns
    have declared : ((Conditions.only f.owner f.name (writtenOut f pairs)).field f).joinCondition =
        some (writtenOut f pairs) := by
      simp [Conditions.field, Conditions.only]
    obtain ⟨raw, made, rfl⟩ := rebase_of_relationCondition declared given
    obtain ⟨resolved, resolved'⟩ := resolveText_of_place (find?_of_build built) placed entity home linked
      (inferred_of_relationCondition has) made own names meant d
    rw [← resolveText_of_given both] at resolved'
    have declaredText : conditionText d (.raw raw) = raw := rfl
    unfold onClauses
    simp only [built, found, relation, joined, relationJoin, built', found', joined', resolved,
      Except.toOption, Option.bind_eq_bind, Option.bind_some, declaredText, resolved']
    rfl

end Plan

/-- A company whose people live somewhere, and whose employees work on projects. The home of a person
belongs to the level of persons. -/
def company : Schema where
  sources := [⟨.runtime, [
    { name := "Person", table := some ⟨none, "person"⟩, subclasses := ["Employee"],
      fields := [
        { name := "id", type := .value .int, attrs := { id := some true } },
        { name := "home", type := .named "Address" }] },
    { name := "Employee", table := some ⟨none, "employee"⟩, superclass := some "Person",
      fields := [
        { name := "boss", type := .named "Address" },
        { name := "projects", type := .named "Project", cardinality := .list,
          attrs := { link := some ⟨⟨none, "employee_project"⟩, none, none⟩ } }] },
    { name := "Address", table := some ⟨none, "address"⟩,
      fields := [{ name := "id", type := .value .int, attrs := { id := some true } }] },
    { name := "Project", table := some ⟨none, "project"⟩,
      fields := [{ name := "id", type := .value .int, attrs := { id := some true } }] }]⟩]

theorem writtenOut_same_company : ∃ p a f kind type join pairs,
    Plan.build company "Employee" = .ok p ∧ p.find? "projects" = some a ∧
    a.relation = some (f, kind) ∧ a.role = .entity type ∧ a.join = some join ∧
    join.condition = .columns pairs ∧
    writtenOut f pairs = "\x7bprojects.id\x7d = \x7blinktable.project_id\x7d" ∧
    company.onClauses "Employee" "projects" .postgres =
      some (conditionText .postgres join.condition, conditionText .postgres join.condition) := by
  obtain ⟨p, built, found⟩ := ok_of_map (x := Plan.build company "Employee")
    (f := fun p => (p.find? "projects").bind fun a => a.relation.bind fun r => a.join.bind fun j =>
      match a.role, j.condition with
      | .entity _, .columns pairs =>
        if (r.1.name ≠ "this" ∧ r.1.name ≠ "linktable") ∧
            (isName r.1.name.toList ∧ ∀ b ∈ p.aliases, isPath b.path.toList) ∧
            ∀ pair ∈ pairs, p.Meant pair.1 ∧ p.Meant pair.2
        then some (writtenOut r.1 pairs) else none
      | _, _ => none)
    (b := some "\x7bprojects.id\x7d = \x7blinktable.project_id\x7d") (by decide +kernel)
  obtain ⟨a, found, rest⟩ := Option.bind_eq_some_iff.mp found
  obtain ⟨⟨f, kind⟩, relation, rest⟩ := Option.bind_eq_some_iff.mp rest
  obtain ⟨join, joined, rest⟩ := Option.bind_eq_some_iff.mp rest
  split at rest
  next type pairs entity inferred =>
    split at rest
    next fits =>
      obtain ⟨own, names, meant⟩ := fits
      refine ⟨p, a, f, kind, type, join, pairs, built, found, relation, entity, joined, inferred,
        Option.some.inj rest, ?_⟩
      exact Plan.writtenOut_same built found relation entity joined inferred own names meant .postgres
    next => cases rest
  next => cases rest

/-- A ledger of orders. The foreign key of an order's customer is named like the field. -/
def ledger : Schema where
  sources := [⟨.runtime, [
    { name := "Ledger", table := some ⟨none, "ledger"⟩,
      fields := [
        { name := "id", type := .value .int, attrs := { id := some true } },
        { name := "order", type := .named "Order" }] },
    { name := "Order", table := some ⟨none, "orders"⟩,
      fields := [
        { name := "id", type := .value .int, attrs := { id := some true } },
        { name := "customer", type := .named "Customer",
          attrs := { joinColumn := some "customer" } }] },
    { name := "Customer", table := some ⟨none, "customer"⟩,
      fields := [{ name := "id", type := .value .int, attrs := { id := some true } }] }]⟩]

/-- Files in folders, with a field of a subclass that is named like a foreign key of the base and a
relation that is named like a short name. -/
def archive : Schema where
  sources := [⟨.runtime, [
    { name := "File", table := some ⟨none, "file"⟩, subclasses := ["Copy"],
      fields := [
        { name := "id", type := .value .int, attrs := { id := some true } },
        { name := "folder", type := .named "Folder" },
        { name := "this", type := .named "Folder" }] },
    { name := "Copy", table := some ⟨none, "copy"⟩, superclass := some "File",
      fields := [{ name := "folder_id", type := .value .int }] },
    { name := "Folder", table := some ⟨none, "folder"⟩,
      fields := [{ name := "id", type := .value .int, attrs := { id := some true } }] }]⟩]

/-- **A condition written out may join on other columns.** The short name of the owner stands for its
main table, the longest alias that a reference spells counts, a field of another level comes before a
column without a field, and `this` is never the name of a relation. All names here are names, and
every field is stored in the column of its name. -/
theorem writtenOut_differs :
    company.onClauses "Employee" "home" .postgres =
      some ("\x22home\x22.\x22id\x22 = \x22employee.person\x22.\x22home_id\x22",
        "\x22home\x22.\x22id\x22 = \x22employee\x22.\x22home_id\x22") ∧
    ledger.onClauses "Ledger" "order.customer" .postgres =
      some ("\x22order.customer\x22.\x22id\x22 = \x22order\x22.\x22customer\x22",
        "\x22order.customer\x22.\x22id\x22 = \x22order.customer\x22") ∧
    archive.onClauses "File" "folder" .postgres =
      some ("\x22folder\x22.\x22id\x22 = \x22file\x22.\x22folder_id\x22",
        "\x22folder\x22.\x22id\x22 = \x22file.copy\x22.\x22folder_id\x22") ∧
    archive.onClauses "File" "this" .postgres =
      some ("\x22this\x22.\x22id\x22 = \x22file\x22.\x22this_id\x22",
        "\x22file\x22.\x22id\x22 = \x22file\x22.\x22this_id\x22") ∧
    ∀ x ∈ [(company, "Employee"), (ledger, "Ledger"), (archive, "File")],
      ∃ p, Plan.build x.1 x.2 = .ok p ∧ ∀ b ∈ p.aliases, isPath b.path.toList ∧
        ∀ m ∈ b.columns, isName m.1.toList ∧ m.2 = m.1 := by
  refine ⟨by decide +kernel, by decide +kernel, by decide +kernel, by decide +kernel, ?_⟩
  have plain : ∀ {s : Schema} {type : String}, (Plan.build s type).toOption.map (fun p =>
      decide (∀ b ∈ p.aliases, isPath b.path.toList ∧
        ∀ m ∈ b.columns, isName m.1.toList ∧ m.2 = m.1)) = some true →
      ∃ p, Plan.build s type = .ok p ∧ ∀ b ∈ p.aliases, isPath b.path.toList ∧
        ∀ m ∈ b.columns, isName m.1.toList ∧ m.2 = m.1 := by
    intro s type h
    obtain ⟨p, built, fits⟩ := ok_of_map h
    exact ⟨p, built, of_decide_eq_true fits⟩
  intro x hx
  simp only [List.mem_cons, List.not_mem_nil, or_false] at hx
  rcases hx with rfl | rfl | rfl
  · exact plain (by decide +kernel)
  · exact plain (by decide +kernel)
  · exact plain (by decide +kernel)

end Orm
