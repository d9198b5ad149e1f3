import Orm.Sql.Scan
import Orm.Sql.Dialect

/-!
# `Orm.Sql.Placeholder` — markers become placeholders

Every marker of a text, positional or named, is replaced by the placeholder of a dialect, and the
values are listed in the order of the placeholders. Positional values are used up from left to
right; a named value is repeated at each of its markers.

## Contents
- **Statements.** `Statement`.
- **Binding.** `placeValues`, `countPositional`, `bindParameters`.
-/

namespace Orm.Sql

/-! ## Statements -/

/-- A text with placeholders, and their values in order. -/
structure Statement where
  sql : String
  params : List Value

/-! ## Binding -/

/-- The number of positional markers among lexemes. -/
def countPositional (ls : List Lexeme) : Nat :=
  ls.countP (· == .positional)

/-- The text of lexemes with placeholders, and their values, when `count` values have been placed
before. Without a positional value the rest of the text stays as it is. -/
def placeValues (dialect : Dialect) (named : List (String × Value)) :
    Nat → List Value → List Lexeme → Except Error (List Char × List Value)
  | _, _, [] => .ok ([], [])
  | count, positional, l :: rest =>
    match l with
    | .positional =>
      match positional with
      | [] => .ok (textOf (l :: rest), [])
      | value :: positional => do
        let later ← placeValues dialect named (count + 1) positional rest
        return ((dialect.placeholderText (count + 1)).toList ++ later.1, value :: later.2)
    | .named name =>
      match named.lookup (String.ofList name) with
      | none => .error (.unboundName (String.ofList name))
      | some value => do
        let later ← placeValues dialect named (count + 1) positional rest
        return ((dialect.placeholderText (count + 1)).toList ++ later.1, value :: later.2)
    | other => do
      let later ← placeValues dialect named count positional rest
      return (other.chars ++ later.1, later.2)

/-- The statement of a text: there must be as many positional values as markers, and every named
marker must have a value. Of two values under one name the first counts. -/
def bindParameters (dialect : Dialect) (named : List (String × Value)) (positional : List Value)
    (text : String) : Except Error Statement := do
  let ls ← lexemes text.toList
  let markers := countPositional ls
  if markers ≠ positional.length then .error (.markerCount markers positional.length)
  let placed ← placeValues dialect named 0 positional ls
  return ⟨String.ofList placed.1, placed.2⟩

end Orm.Sql
