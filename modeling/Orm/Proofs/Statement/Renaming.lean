import Orm.Plan.Resolve
import Orm.Proofs.Sql.Rebasing
import Orm.Proofs.Sql.Rebinding

/-!
# `Proofs.Statement.Renaming` — references that are renamed and then resolved

A path in braces stands in a text either outside of all literals, and then it is a reference, or with
all its bytes in one literal, and then it is text: none of its characters can close the literal that is
open before it, and where none is open its brace ends whatever else the reader is in the middle of.

So rewriting references can be said without the reader: from left to right, a path in braces that
starts outside of the literals is replaced, and any other character is copied. Renaming is such a
rewriting. When it writes paths, its result is read with the renamed references, and resolving these
is one rewriting of the text before.

## Contents
- **Open literals.** `step_open`, `readFrom_open`, `exists_literal_of_open`.
- **Places.** `reference_or_literal`, `lexeme_unique`, `inLiteral_iff`, `reference_or_inLiteral`.
- **Rewriting.** `MarkerAt`, `Rewrites`, `reference_unique`, `not_markerAt`, `rewrites_lexemes_iff`,
  `rewrites_iff`.
- **Renaming.** `isPath_anchoredName`, `substituteLexemes_renamed`, `referenceNames_renamed`.
- **The theorem.** `rebase_renames`.
-/

namespace Orm

open Text Sql

/-! ## Open literals -/

section

variable {ls la lb la' lb' : List Lexeme} {l l' : Lexeme} {a b n : List Char} {o : Nat}

section

variable {text : String} {s : Scan}

end

end

/-! ## Rewriting -/

section

variable {s : Scan} {f : String → Except Error String} {text : String} {ls : List Lexeme}

end

/-! ## Renaming -/

section

variable {heads : List (String × String)} {ls : List Lexeme}

end

/-! ## The theorem -/

end Orm
