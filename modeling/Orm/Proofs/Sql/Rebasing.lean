import Orm.Proofs.Sql.Lexing

/-!
# `Proofs.Sql.Rebasing` — texts whose references are anchored

Anchoring writes a path in the place of the first segment of each reference and leaves the rest of the
text as it is. What it has written is read again later, and then it is the reader who decides what a
reference is.

## Contents
- **Names.** `anchoredName`.
- **Lexemes.** `renamed`, `mem_renamed`.
- **Texts.** `rebase_eq`, `lexemes_rebase_iff`.
-/

namespace Orm

open Text Sql

/-- A name as it is anchored. -/
def anchoredName (heads : List (String × String)) (n : List Char) : List Char :=
  (rebaseName heads (String.ofList n)).toList

/-- Lexemes with their references anchored. -/
def renamed (heads : List (String × String)) (ls : List Lexeme) : List Lexeme :=
  replacedLexemes (fun n => [.reference (anchoredName heads n)]) ls

section

variable {heads : List (String × String)} {text : String} {ls : List Lexeme}

theorem mem_renamed {m : List Char} :
    .reference m ∈ renamed heads ls ↔ ∃ n, .reference n ∈ ls ∧ m = anchoredName heads n := by
  unfold renamed
  induction ls with
  | nil => simp
  | cons l rest ih =>
    cases l with
    | reference n =>
      rw [replacedLexemes, replaced_reference, List.singleton_append, List.mem_cons, ih]
      simp
    | _ =>
      show .reference m ∈ _ :: replacedLexemes _ rest ↔ _
      rw [List.mem_cons, ih]
      simp

/-- Anchoring writes the anchored names between the braces. -/
theorem rebase_eq (h : lexemes text.toList = .ok ls) : rebase heads text =
    .ok (String.ofList (replacedText (fun n => (Lexeme.reference (anchoredName heads n)).chars) ls)) := by
  unfold rebase substituteReferences
  rw [h]
  show (substituteLexemes _ ls >>= fun chars => pure (String.ofList chars)) = _
  rw [substituteLexemes_eq (g := fun n => (Lexeme.reference (anchoredName heads n)).chars)]
  · rfl
  · intro n _
    refine congrArg Except.ok (String.toList_inj.mp ?_)
    simp [Lexeme.chars, anchoredName]

/-- **A text is read as its anchored lexemes exactly if all anchored names are paths.** -/
theorem lexemes_rebase_iff {anchored : String} (h : lexemes text.toList = .ok ls)
    (made : rebase heads text = .ok anchored) :
    lexemes anchored.toList = .ok (renamed heads ls) ↔
      ∀ n, .reference n ∈ ls → isPath (anchoredName heads n) := by
  have written : anchored.toList =
      replacedText (fun n => (Lexeme.reference (anchoredName heads n)).chars) ls := by
    rw [rebase_eq h] at made
    rw [← Except.ok.inj made, String.toList_ofList]
  constructor
  · intro reads n hn
    exact isPath_of_mem reads (mem_renamed.mpr ⟨n, hn, rfl⟩)
  · intro paths
    rw [written]
    apply lexemes_replacedText h
    intro n hn
    exact ⟨by simp [Lexeme.chars], by simp [Lexeme.chars, StartsApart]; decide, .reference (paths n hn)⟩

end

end Orm
