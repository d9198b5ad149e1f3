import Mathlib.Data.List.Forall2
import Orm.Sql.Dialect
import Orm.Text.Cut

/-!
# `Proofs.Sql.Quoting` — names between quotes

A name is written between quotes, and every quote in it twice. A reader that starts at the first quote, takes
two quotes for one and stops at a single one finds the end of the name again, whatever the name holds: all
quotes in it come in pairs. Only what follows can mislead the reader, and only by starting with the quote
itself, which makes a pair of the last quote; then the reader goes on, but it has not stopped too early.

## Contents
- **Steps of the reader.** `unquoteRest?_twice`, `unquoteRest?_once`, `unquoteRest?_cons_of_ne`.
- **Names.** `unquoteRest?_doubled`, `eq_of_unquoteRest?`, `unquote?_eq_some_iff`.
- **Ends of names.** `Delimits`, `delimits_quoted`.
- **Tables.** `TableName.written`.
- **Main result.** `Dialect.quoted_delimits`.
-/

namespace Orm.Sql

open Text

variable {quote c : Char} {text name rest read left : List Char}

/-! ## Steps of the reader -/

/-- Two quotes are one character. -/
theorem unquoteRest?_twice :
    unquoteRest? quote (quote :: quote :: text) =
      (unquoteRest? quote text).map fun p => (quote :: p.1, p.2) := by
  rw [unquoteRest?, if_pos rfl, if_pos rfl]

/-- A single quote ends the name. -/
theorem unquoteRest?_once (single : rest.head? ≠ some quote) :
    unquoteRest? quote (quote :: rest) = some ([], rest) := by
  cases rest with
  | nil => exact if_pos rfl
  | cons d more => rw [unquoteRest?, if_pos rfl, if_neg fun same => single (congrArg some same)]

/-- Any other character is one of the name. -/
theorem unquoteRest?_cons_of_ne (other : c ≠ quote) :
    unquoteRest? quote (c :: text) = (unquoteRest? quote text).map fun p => (c :: p.1, p.2) := by
  cases text with
  | nil => exact if_neg other
  | cons d more => rw [unquoteRest?, if_neg other]

/-! ## Names -/

/-- The inside of a quoted name is read as the name, whatever follows it. -/
theorem unquoteRest?_doubled (name text : List Char) :
    unquoteRest? quote (doubled quote name ++ text) =
      (unquoteRest? quote text).map fun p => (name ++ p.1, p.2) := by
  induction name with
  | nil => simp [doubled]
  | cons c rest ih =>
    by_cases same : c = quote
    · subst same
      rw [doubled_cons_self, List.cons_append, List.cons_append, unquoteRest?_twice, ih, Option.map_map]
      rfl
    · rw [doubled_cons_of_ne same, List.cons_append, unquoteRest?_cons_of_ne same, ih, Option.map_map]
      rfl

/-- What is read is the inside of a quoted name, and a single quote behind it. -/
theorem eq_of_unquoteRest? (h : unquoteRest? quote text = some (read, left)) :
    text = doubled quote read ++ quote :: left ∧ left.head? ≠ some quote := by
  fun_induction unquoteRest? quote text generalizing read with
  | case1 => cases h
  | case2 =>
    cases h
    exact ⟨rfl, nofun⟩
  | case3 => cases h
  | case4 rest ih =>
    obtain ⟨p, later, same⟩ := Option.map_eq_some_iff.mp h
    cases same
    obtain ⟨rfl, single⟩ := ih later
    exact ⟨by rw [doubled_cons_self]; rfl, single⟩
  | case5 d rest other =>
    cases h
    exact ⟨rfl, fun same => other (Option.some.inj same)⟩
  | case6 c d rest other ih =>
    obtain ⟨p, later, same⟩ := Option.map_eq_some_iff.mp h
    cases same
    obtain ⟨written, single⟩ := ih later
    exact ⟨by rw [doubled_cons_of_ne other, written]; rfl, single⟩

/-- **The reader takes exactly the quoted names behind which no quote follows.** -/
theorem unquote?_eq_some_iff :
    unquote? quote text = some (name, rest) ↔
      text = quoteChars quote name ++ rest ∧ rest.head? ≠ some quote := by
  have written : quoteChars quote name ++ rest = quote :: (doubled quote name ++ quote :: rest) := by
    simp [quoteChars]
  rw [written]
  constructor
  · intro h
    cases text with
    | nil => cases h
    | cons c more =>
      obtain ⟨rfl, inside⟩ := Option.ite_none_right_eq_some.mp h
      obtain ⟨rfl, single⟩ := eq_of_unquoteRest? inside
      exact ⟨rfl, single⟩
  · rintro ⟨rfl, single⟩
    rw [unquote?, if_pos rfl, unquoteRest?_doubled, unquoteRest?_once single, Option.map_some,
      List.append_nil]

/-- What is left of a text is its end. -/
theorem isSuffix_of_unquoteRest? (h : unquoteRest? quote text = some (read, left)) : left <:+ text := by
  rw [(eq_of_unquoteRest? h).1]
  exact ⟨doubled quote read ++ [quote], by simp⟩

/-! ## Ends of names -/

/-- A text is a name in quotes and ends with them: a reader that starts at the text takes the name and stops
right behind the text, unless a quote follows; and it never stops inside the text, whatever follows. -/
structure Delimits (quote : Char) (text name : String) : Prop where
  read_exactly : ∀ rest : List Char, rest.head? ≠ some quote →
    unquote? quote (text.toList ++ rest) = some (name.toList, rest)
  read_past : ∀ rest read left : List Char,
    unquote? quote (text.toList ++ rest) = some (read, left) → left <:+ rest

/-- A text delimits one name. -/
theorem Delimits.unique {text a b : String} (ha : Delimits quote text a) (hb : Delimits quote text b) :
    a = b := by
  have same := (ha.read_exactly [] nofun).symm.trans (hb.read_exactly [] nofun)
  exact String.toList_inj.mp (congrArg Prod.fst (Option.some.inj same))

/-- **A name in quotes delimits itself.** -/
theorem Dialect.delimits_quoted (d : Dialect) (name : String) : Delimits d.quote (d.quoted name) name := by
  have written (rest : List Char) : (d.quoted name).toList ++ rest =
      d.quote :: (doubled d.quote name.toList ++ d.quote :: rest) := by
    simp [Dialect.quoted, quoteChars]
  constructor
  · intro rest single
    apply unquote?_eq_some_iff.mpr
    rw [Dialect.quoted, String.toList_ofList]
    exact ⟨rfl, single⟩
  · intro rest read left h
    rw [written, unquote?, if_pos rfl, unquoteRest?_doubled] at h
    obtain ⟨p, behind, same⟩ := Option.map_eq_some_iff.mp h
    cases same
    -- The reader stops at the last quote, or goes on in what follows it.
    by_cases single : rest.head? ≠ some d.quote
    · rw [unquoteRest?_once single] at behind
      cases behind
      exact List.suffix_rfl
    · obtain ⟨more, rfl⟩ := List.head?_eq_some_iff.mp (not_not.mp single)
      rw [unquoteRest?_twice] at behind
      obtain ⟨p, later, same⟩ := Option.map_eq_some_iff.mp behind
      cases same
      exact (isSuffix_of_unquoteRest? later).trans (List.suffix_cons _ _)

/-! ## Tables -/

/-- The names that a table is written with: its schema, where the dialect uses it, and its own. -/
def TableName.written (d : Dialect) (table : TableName) : List String :=
  match table.schema, d.schema with
  | some schema, .qualified => [schema, table.name]
  | _, _ => [table.name]

/-- Where names are quoted, a table is its names in quotes with points between them. -/
theorem Dialect.table_eq_joinWith {d : Dialect} (quotes : d.quoteNames = true) (t : TableName) :
    d.table t = joinWith "." ((t.written d).map d.quoted) := by
  have quoted (name : String) : d.name name = d.quoted name := if_pos quotes
  obtain ⟨schema, name⟩ := t
  unfold Dialect.table TableName.written
  simp only [quoted]
  cases schema with
  | none => rfl
  | some schema => cases d.schema <;> rfl

/-! ## Main result -/

/-- **A quoted name is read back from whatever text goes on behind it without a quote, and nothing else is
read as that name; so names are never quoted alike, and none ends its own quotes.** This holds of aliases and
labels, and where the dialect quotes names, of columns and of the parts of tables. -/
theorem Dialect.quoted_delimits (d : Dialect) :
    (∀ (name : String) (text rest : List Char), unquote? d.quote text = some (name.toList, rest) ↔
      text = (d.quoted name).toList ++ rest ∧ rest.head? ≠ some d.quote) ∧
    (∀ a b : String, d.quoted a = d.quoted b → a = b) ∧
    (∀ path : String, Delimits d.quote (d.label path) path) ∧
    (d.quoteNames = true →
      (∀ column : String, Delimits d.quote (d.name column) column) ∧
      ∀ t : TableName, ∃ parts : List String, d.table t = joinWith "." parts ∧
        List.Forall₂ (Delimits d.quote) parts (t.written d)) := by
  refine ⟨?_, ?_, d.delimits_quoted, fun quotes => ⟨?_, ?_⟩⟩
  · intro name text rest
    rw [unquote?_eq_some_iff, Dialect.quoted, String.toList_ofList]
  · intro a b same
    exact (d.delimits_quoted a).unique (same ▸ d.delimits_quoted b)
  · intro column
    rw [Dialect.name, if_pos quotes]
    exact d.delimits_quoted column
  · intro t
    refine ⟨_, Dialect.table_eq_joinWith quotes t, ?_⟩
    rw [List.forall₂_map_left_iff, List.forall₂_same]
    intro name _
    exact d.delimits_quoted name

/-- Backquotes at the end of an alias, at the start of a column and in a schema: each name ends where its own
quotes do, and the alias is not taken for the one without the backquote. -/
theorem Dialect.quoted_delimits_backquotes :
    Dialect.mysql.quoteNames = true ∧
    unquote? '\x60' ((Dialect.mysql.label "a\x60").toList ++ [' ', '\x60']) =
      some (['a', '\x60'], [' ', '\x60']) ∧
    Dialect.mysql.quoted "a\x60" ≠ Dialect.mysql.quoted "a" ∧
    (Dialect.mysql.name "\x60b" = "\x60\x60\x60b\x60" ∧
      Delimits '\x60' (Dialect.mysql.name "\x60b") "\x60b") ∧
    ∃ parts, Dialect.mysql.table ⟨some "s\x60", "t"⟩ = joinWith "." parts ∧
      List.Forall₂ (Delimits '\x60') parts ["s\x60", "t"] := by
  obtain ⟨-, apart, labels, named⟩ := Dialect.quoted_delimits Dialect.mysql
  obtain ⟨columns, tables⟩ := named rfl
  refine ⟨rfl, ?_, ?_, ⟨by decide, columns _⟩, tables _⟩
  · exact (labels "a\x60").read_exactly [' ', '\x60'] (by decide)
  · intro same
    exact absurd (apart _ _ same) (by decide)

end Orm.Sql
