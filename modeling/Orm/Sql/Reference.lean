import Orm.Sql.Lexeme

/-!
# `Orm.Sql.Reference` — symbolic references in statement texts

Texts name joined tables by path instead of by alias: `{path}` stands for a table and `{path.column}`
for one of its columns. References inside literals are text.

## Contents
- **Substitution.** `substituteLexemes`, `substituteReferences`.
- **Anchoring.** `rebaseName`, `rebase`: local names become paths.
- **Listing.** `referenceNames`.
-/

namespace Orm.Sql

open Text

/-! ## Substitution -/

/-- The text of lexemes with every reference replaced by what `f` makes of its name. -/
def substituteLexemes (f : String → Except Error String) : List Lexeme → Except Error (List Char)
  | [] => .ok []
  | l :: rest => do
    let here ← match l with
      | .reference name => (f (String.ofList name)).map String.toList
      | other => .ok other.chars
    let later ← substituteLexemes f rest
    return here ++ later

/-- A text with every reference replaced by what `f` makes of its name. -/
def substituteReferences (f : String → Except Error String) (text : String) : Except Error String := do
  let ls ← lexemes text.toList
  let chars ← substituteLexemes f ls
  return String.ofList chars

/-! ## Anchoring -/

/-- A name with its first segment replaced by the path that stands for it; the first pair with that
segment counts, and a segment without a pair stays. -/
def rebaseName (heads : List (String × String)) (name : String) : String :=
  match cutAt '.' name.toList with
  | some (head, rest) =>
    let head := String.ofList head
    (heads.lookup head).getD head ++ "." ++ String.ofList rest
  | none => (heads.lookup name).getD name

/-- A text with the first segment of every reference replaced by the path that stands for it. -/
def rebase (heads : List (String × String)) (text : String) : Except Error String :=
  substituteReferences (fun name => .ok ("\x7b" ++ rebaseName heads name ++ "\x7d")) text

/-! ## Listing -/

/-- The name of a reference. -/
def Lexeme.referenceName? : Lexeme → Option String
  | .reference name => some (String.ofList name)
  | _ => none

/-- The names of the references of a text, in its order. -/
def referenceNames (text : String) : Except Error (List String) := do
  let ls ← lexemes text.toList
  return ls.filterMap Lexeme.referenceName?

end Orm.Sql
