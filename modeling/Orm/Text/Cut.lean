/-!
# `Orm.Text.Cut` — cutting, joining and replacing

Operations on text as a list of characters that the rest of the library cuts names and statements
with.

## Contents
- **Cutting.** `cutAt` at the first occurrence of a character, `splitsAt` at every occurrence,
  `afterLast`.
- **Joining.** `joinWith`.
- **Replacing.** `replaceAll`.
- **Size.** `byteSize`, the number of UTF-8 bytes.
-/

namespace Orm.Text

/-! ## Cutting -/

/-- What stands before and after the first occurrence of `mark`, if there is one. -/
def cutAt (mark : Char) : List Char → Option (List Char × List Char)
  | [] => none
  | c :: rest =>
    if c = mark then some ([], rest) else (cutAt mark rest).map fun p => (c :: p.1, p.2)

/-- A cut loses the mark only. -/
theorem eq_append_of_cutAt {mark : Char} {text before after : List Char}
    (h : cutAt mark text = some (before, after)) : text = before ++ mark :: after := by
  induction text generalizing before with
  | nil => simp [cutAt] at h
  | cons c rest ih =>
    simp only [cutAt] at h
    split at h
    · next hc =>
      obtain ⟨rfl, rfl⟩ := Prod.mk.inj (Option.some.inj h)
      simp [hc]
    · obtain ⟨p, hp, heq⟩ := Option.map_eq_some_iff.1 h
      obtain ⟨rfl, rfl⟩ := Prod.mk.inj heq
      simp [ih hp]

/-- What stands before the first mark and behind it. -/
theorem cutAt_append {mark : Char} {before after : List Char} (h : mark ∉ before) :
    cutAt mark (before ++ mark :: after) = some (before, after) := by
  induction before with
  | nil => simp [cutAt]
  | cons c rest ih =>
    have other : c ≠ mark := fun same => h (same ▸ List.mem_cons_self)
    have later := ih fun hm => h (List.mem_cons_of_mem c hm)
    simp [cutAt, other, later]

/-- No cut means no mark. -/
theorem cutAt_eq_none_iff {mark : Char} {text : List Char} :
    cutAt mark text = none ↔ mark ∉ text := by
  induction text with
  | nil => simp [cutAt]
  | cons c rest ih =>
    simp only [cutAt]
    split
    · next hc => simp [hc]
    · next hc => simp [ih, Ne.symm hc]

/-- Every way to cut the text at an occurrence of `mark`, the first occurrence first. -/
def splitsAt (mark : Char) : List Char → List (List Char × List Char)
  | [] => []
  | c :: rest =>
    let later := (splitsAt mark rest).map fun p => (c :: p.1, p.2)
    if c = mark then ([], rest) :: later else later

/-- The splits of a text are its decompositions around the mark. -/
theorem mem_splitsAt {mark : Char} {text before after : List Char} :
    (before, after) ∈ splitsAt mark text ↔ text = before ++ mark :: after := by
  induction text generalizing before with
  | nil => simp [splitsAt]
  | cons c rest ih =>
    cases before with
    | nil =>
      by_cases hc : c = mark
      · simp [splitsAt, hc, eq_comm]
      · simp [splitsAt, hc]
    | cons b bs =>
      have later : (b :: bs, after) ∈ (splitsAt mark rest).map (fun p => (c :: p.1, p.2)) ↔
          c = b ∧ rest = bs ++ mark :: after := by
        simp only [List.mem_map, Prod.mk.injEq, List.cons.injEq, Prod.exists]
        constructor
        · rintro ⟨x, y, hmem, ⟨rfl, rfl⟩, rfl⟩
          exact ⟨rfl, ih.1 hmem⟩
        · rintro ⟨rfl, heq⟩
          exact ⟨bs, after, ih.2 heq, ⟨rfl, rfl⟩, rfl⟩
      by_cases hc : c = mark <;> simp [splitsAt, hc] <;> simpa [hc] using later

/-- What follows the last character that satisfies `isMark`; the whole text if none does. -/
def afterLast (isMark : Char → Bool) (text : List Char) : List Char :=
  (text.reverse.takeWhile fun c => !isMark c).reverse

/-! ## Joining -/

/-- The parts with `separator` between neighbours. -/
def joinWith (separator : String) : List String → String
  | [] => ""
  | [part] => part
  | part :: next :: rest => part ++ separator ++ joinWith separator (next :: rest)

/-! ## Replacing -/

/-- The rest of `text` after `pattern`, if the text starts with it. -/
def afterStart : List Char → List Char → Option (List Char)
  | [], text => some text
  | _ :: _, [] => none
  | p :: pattern, c :: text => if p = c then afterStart pattern text else none

/-- Replaces occurrences from left to right; `skip` characters of an occurrence already replaced
are passed over. -/
def replaceFrom (pattern replacement : List Char) : Nat → List Char → List Char
  | _, [] => []
  | skip + 1, _ :: rest => replaceFrom pattern replacement skip rest
  | 0, c :: rest =>
    match afterStart pattern (c :: rest) with
    | some _ => replacement ++ replaceFrom pattern replacement (pattern.length - 1) rest
    | none => c :: replaceFrom pattern replacement 0 rest

/-- Every occurrence of `pattern` replaced, from left to right and without overlap. The empty
pattern occurs before every character and at the end. -/
def replaceAll (pattern replacement text : List Char) : List Char :=
  if pattern.isEmpty then replacement ++ text.flatMap fun c => c :: replacement
  else replaceFrom pattern replacement 0 text

/-! ## Size -/

/-- The number of bytes of the text in UTF-8. -/
def byteSize : List Char → Nat
  | [] => 0
  | c :: rest => c.utf8Size + byteSize rest

/-- Sizes add up. -/
@[simp]
theorem byteSize_append (a b : List Char) : byteSize (a ++ b) = byteSize a + byteSize b := by
  induction a with
  | nil => simp [byteSize]
  | cons c rest ih => simp [byteSize, ih, Nat.add_assoc]

end Orm.Text
