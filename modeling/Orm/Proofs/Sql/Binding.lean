import Mathlib.Tactic.Tauto
import Orm.Proofs.Outcome
import Orm.Proofs.Sql.Lexing
import Orm.Sql.Placeholder

/-!
# `Proofs.Sql.Binding` — which value a placeholder stands for

Binding replaces the markers of a text by placeholders and lists their values. When every positional
marker has a value and every name a binding, this cannot fail, and the values stand in the order of
the markers. Both the text and the values are told by recursion over the lexemes, so they are known
for texts in a row from the texts.

References are text to binding. A text in which other texts stand in the place of references is
therefore bound as the text before, provided that the new texts hold no markers and no literals and
do not go on with a marker that stands before them.

## Contents
- **What binding gives.** `Lexeme.isMarker`, `markerValues`, `filled`, `Binds`, `placeValues_eq`.
- **Texts in a row.** `filled_append`, `markerValues_append`, `Binds.append`.
- **Places.** `filled_marker`, `getElem?_markerValues`.
- **References as text.** `bare`, `bare_readAll_of_ends`, `exists_lexemes_replaced`.
- **Statements.** `bindParameters_replaced`.
-/

namespace Orm.Sql

/-! ## What binding gives -/

/-- Whether a lexeme is replaced by a placeholder. -/
def Lexeme.isMarker : Lexeme → Bool
  | .positional | .named _ => true
  | _ => false

/-- The values of the markers in their order. The positional values are used up from left to
right. -/
def markerValues (named : List (String × Value)) : List Value → List Lexeme → List Value
  | _, [] => []
  | positional, .positional :: rest =>
    positional.head?.toList ++ markerValues named positional.tail rest
  | positional, .named name :: rest =>
    (named.lookup (String.ofList name)).toList ++ markerValues named positional rest
  | positional, _ :: rest => markerValues named positional rest

/-- The text of lexemes with placeholders in the place of markers, when `count` stand before it. -/
def filled (d : Dialect) : Nat → List Lexeme → List Char
  | _, [] => []
  | count, l :: rest =>
    if l.isMarker then (d.placeholderText (count + 1)).toList ++ filled d (count + 1) rest
    else l.chars ++ filled d count rest

/-- Every positional marker has a value of its own, and every named one has one. -/
structure Binds (named : List (String × Value)) (positional : List Value) (ls : List Lexeme) :
    Prop where
  count : countPositional ls = positional.length
  bound : ∀ n, .named n ∈ ls → (named.lookup (String.ofList n)).isSome

section

variable {d : Dialect} {named : List (String × Value)} {positional : List Value}
  {l : Lexeme} {ls : List Lexeme}

@[simp]
theorem countPositional_nil : countPositional [] = 0 := rfl

@[simp]
theorem countPositional_append (a b : List Lexeme) :
    countPositional (a ++ b) = countPositional a + countPositional b :=
  List.countP_append

@[simp]
theorem countPositional_cons (l : Lexeme) (ls : List Lexeme) :
    countPositional (l :: ls) = countPositional ls + if l = .positional then 1 else 0 := by
  simp [countPositional, List.countP_cons]

namespace Binds

theorem nil : Binds named [] [] :=
  ⟨rfl, fun _ h => nomatch h⟩

/-- After a positional marker with its value. -/
theorem of_positional (h : Binds named positional (.positional :: ls)) :
    ∃ value more, positional = value :: more ∧ Binds named more ls := by
  have count := h.count
  cases positional with
  | nil => simp at count
  | cons value more =>
    refine ⟨value, more, rfl, ?_, fun n hn => h.bound n (List.mem_cons_of_mem _ hn)⟩
    simpa using count

/-- After a lexeme of another kind. -/
theorem of_cons (h : Binds named positional (l :: ls)) (other : l ≠ .positional) :
    Binds named positional ls := by
  refine ⟨?_, fun n hn => h.bound n (List.mem_cons_of_mem _ hn)⟩
  have count := h.count
  simpa [other] using count

/-- Texts in a row use their values in a row. -/
theorem append {va vb : List Value} {a b : List Lexeme} (ha : Binds named va a)
    (hb : Binds named vb b) : Binds named (va ++ vb) (a ++ b) where
  count := by rw [countPositional_append, ha.count, hb.count, List.length_append]
  bound n hn := (List.mem_append.mp hn).elim (ha.bound n) (hb.bound n)

end Binds

/-- **Binding succeeds** when every marker has a value. It gives the text with placeholders and the
values in the order of the markers. -/
theorem placeValues_eq (h : Binds named positional ls) (count : Nat) :
    placeValues d named count positional ls =
      .ok (filled d count ls, markerValues named positional ls) := by
  induction ls generalizing count positional with
  | nil => rfl
  | cons l rest ih =>
    cases l with
    | positional =>
      obtain ⟨value, more, rfl, later⟩ := h.of_positional
      simp only [placeValues, ih later, filled, markerValues, Lexeme.isMarker, ↓reduceIte]
      rfl
    | named n =>
      have later := h.of_cons (by simp)
      obtain ⟨value, found⟩ := Option.isSome_iff_exists.mp (h.bound n List.mem_cons_self)
      simp only [placeValues, ih later, filled, markerValues, Lexeme.isMarker, found, ↓reduceIte]
      rfl
    | _ => simp [placeValues, ih (h.of_cons (by simp)), filled, markerValues, Lexeme.isMarker]

/-! ## Texts in a row -/

theorem filled_append (count : Nat) (a b : List Lexeme) :
    filled d count (a ++ b) = filled d count a ++ filled d (count + a.countP (·.isMarker)) b := by
  induction a generalizing count with
  | nil => rfl
  | cons l rest ih =>
    by_cases marker : l.isMarker
    · simp [filled, marker, ih, Nat.add_assoc, Nat.add_comm 1]
    · simp [filled, marker, ih]

/-- A text without markers stays as it is. -/
theorem filled_eq_textOf (count : Nat) {ls : List Lexeme} (h : ∀ l ∈ ls, ¬ l.isMarker) :
    filled d count ls = textOf ls := by
  induction ls with
  | nil => rfl
  | cons l rest ih =>
    have later := ih fun l' hl' => h l' (List.mem_cons_of_mem _ hl')
    rw [filled, if_neg (h l List.mem_cons_self), later]
    rfl

/-- Texts in a row use their values in a row. -/
theorem markerValues_append {va vb : List Value} {a b : List Lexeme}
    (h : countPositional a = va.length) :
    markerValues named (va ++ vb) (a ++ b) = markerValues named va a ++ markerValues named vb b := by
  induction a generalizing va with
  | nil =>
    obtain rfl : va = [] := List.eq_nil_of_length_eq_zero h.symm
    rfl
  | cons l rest ih =>
    cases l with
    | positional =>
      cases va with
      | nil => simp at h
      | cons value more =>
        have counted : countPositional rest = more.length := by simpa using h
        simp [markerValues, ih counted]
    | named n => simp [markerValues, ih (by simpa using h)]
    | _ => simp [markerValues, ih (by simpa using h)]

/-- There are as many values as markers. -/
theorem length_markerValues (h : Binds named positional ls) :
    (markerValues named positional ls).length = ls.countP (·.isMarker) := by
  induction ls generalizing positional with
  | nil => rfl
  | cons l rest ih =>
    cases l with
    | positional =>
      obtain ⟨value, more, rfl, later⟩ := h.of_positional
      simp [markerValues, ih later, Lexeme.isMarker, Nat.add_comm]
    | named n =>
      obtain ⟨value, found⟩ := Option.isSome_iff_exists.mp (h.bound n List.mem_cons_self)
      simp [markerValues, ih (h.of_cons (by simp)), Lexeme.isMarker, found, Nat.add_comm]
    | _ => simp [markerValues, ih (h.of_cons (by simp)), Lexeme.isMarker]

/-! ## Places -/

/-- A marker is replaced by the placeholder that counts the markers up to it. -/
theorem filled_marker {m : Lexeme} (marker : m.isMarker) (before after : List Lexeme) :
    filled d 0 (before ++ m :: after) = filled d 0 before ++
      (d.placeholderText (before.countP (·.isMarker) + 1)).toList ++
        filled d (before.countP (·.isMarker) + 1) after := by
  rw [filled_append, filled, if_pos marker, Nat.zero_add, List.append_assoc]

/-- The value of a marker when `positional` are the positional values that are left. -/
def Lexeme.value? (named : List (String × Value)) (positional : List Value) : Lexeme → Option Value
  | .positional => positional.head?
  | .named name => named.lookup (String.ofList name)
  | _ => none

/-- A lexeme that is no marker has no value. -/
theorem markerValues_cons (l : Lexeme) (ls : List Lexeme) :
    markerValues named positional (l :: ls) = (l.value? named positional).toList ++
      markerValues named (positional.drop (countPositional [l])) ls := by
  cases l <;> simp [markerValues, Lexeme.value?]

/-- **The value at a marker's place is the marker's**, where the positional values are used up from
left to right. -/
theorem getElem?_markerValues {before after : List Lexeme} {m : Lexeme} (marker : m.isMarker)
    (h : Binds named positional (before ++ m :: after)) :
    (markerValues named positional (before ++ m :: after))[before.countP (·.isMarker)]? =
      m.value? named (positional.drop (countPositional before)) := by
  have count := h.count
  rw [countPositional_append] at count
  have front : Binds named (positional.take (countPositional before)) before := by
    refine ⟨?_, fun n hn => h.bound n (by simp [hn])⟩
    rw [List.length_take]
    omega
  have rest : Binds named (positional.drop (countPositional before)) (m :: after) := by
    refine ⟨?_, fun n hn => h.bound n (List.mem_append_right _ hn)⟩
    rw [List.length_drop]
    omega
  have split : markerValues named positional (before ++ m :: after) =
      markerValues named (positional.take (countPositional before)) before ++
        markerValues named (positional.drop (countPositional before)) (m :: after) := by
    rw [← markerValues_append front.count, List.take_append_drop]
  rw [split, ← length_markerValues front, List.getElem?_append_right (Nat.le_refl _), Nat.sub_self,
    markerValues_cons]
  -- The marker has a value, so that value comes first.
  have some : (m.value? named (positional.drop (countPositional before))).isSome := by
    cases m with
    | positional =>
      obtain ⟨value, more, left, -⟩ := rest.of_positional
      simp [Lexeme.value?, left]
    | named n => exact rest.bound n List.mem_cons_self
    | _ => cases marker
  obtain ⟨value, found⟩ := Option.isSome_iff_exists.mp some
  simp [found]

/-! ## References as text -/

/-- Lexemes with texts in the place of references. -/
def spelled (f : List Char → List Char) (ls : List Lexeme) : List Lexeme :=
  replacedLexemes (fun n => (f n).map .char) ls

/-- Lexemes with references as the text they were read from. -/
def bare (ls : List Lexeme) : List Lexeme :=
  spelled (fun n => (Lexeme.reference n).chars) ls

section

variable {f : List Char → List Char}

@[simp]
theorem spelled_append (a b : List Lexeme) : spelled f (a ++ b) = spelled f a ++ spelled f b :=
  replaced_append a b

theorem filled_chars (count : Nat) (cs : List Char) (ls : List Lexeme) :
    filled d count (cs.map .char ++ ls) = cs ++ filled d count ls := by
  induction cs with
  | nil => rfl
  | cons c rest ih => simpa [filled, Lexeme.isMarker, Lexeme.chars] using ih

theorem markerValues_chars (cs : List Char) (ls : List Lexeme) :
    markerValues named positional (cs.map .char ++ ls) = markerValues named positional ls := by
  induction cs with
  | nil => rfl
  | cons c rest ih => simpa [markerValues] using ih

/-- Texts in the place of references take no values. -/
theorem markerValues_spelled : markerValues named positional (spelled f ls) =
    markerValues named positional ls := by
  induction ls generalizing positional with
  | nil => rfl
  | cons l rest ih =>
    cases l with
    | reference n =>
      show markerValues named positional ((f n).map .char ++ spelled f rest) = _
      rw [markerValues_chars, ih]
      rfl
    | positional =>
      show positional.head?.toList ++ markerValues named positional.tail (spelled f rest) = _
      rw [ih]
      rfl
    | named n =>
      show (named.lookup _).toList ++ markerValues named positional (spelled f rest) = _
      rw [ih]
      rfl
    | _ => exact ih

/-- References as text are bound as references. -/
theorem filled_bare (count : Nat) : filled d count (bare ls) = filled d count ls := by
  induction ls generalizing count with
  | nil => rfl
  | cons l rest ih =>
    cases l with
    | reference n =>
      show filled d count ((Lexeme.reference n).chars.map .char ++ bare rest) = _
      rw [filled_chars, ih]
      rfl
    | _ =>
      show filled d count (_ :: bare rest) = _
      simp only [filled, ih]

theorem mem_spelled_named {n : List Char} : .named n ∈ spelled f ls ↔ .named n ∈ ls := by
  induction ls with
  | nil => rfl
  | cons l rest ih =>
    cases l with
    | reference m =>
      show .named n ∈ (f m).map Lexeme.char ++ spelled f rest ↔ _
      simp [ih]
    | _ =>
      show .named n ∈ _ :: spelled f rest ↔ _
      simp [ih]

theorem countPositional_spelled : countPositional (spelled f ls) = countPositional ls := by
  have chars : ∀ cs : List Char, countPositional (cs.map .char) = 0 := by
    intro cs
    simp [countPositional, List.countP_eq_zero]
  induction ls with
  | nil => rfl
  | cons l rest ih =>
    cases l with
    | reference m =>
      show countPositional ((f m).map .char ++ spelled f rest) = _
      simp [chars, ih]
    | _ =>
      show countPositional (_ :: spelled f rest) = _
      simp [ih]

/-- Texts in the place of references need no values. -/
theorem binds_spelled_iff : Binds named positional (spelled f ls) ↔ Binds named positional ls := by
  constructor
  · rintro ⟨count, bound⟩
    exact ⟨countPositional_spelled ▸ count, fun n hn => bound n (mem_spelled_named.mpr hn)⟩
  · rintro ⟨count, bound⟩
    exact ⟨countPositional_spelled.trans count, fun n hn => bound n (mem_spelled_named.mp hn)⟩

end

end

@[simp]
theorem bare_append (a b : List Lexeme) : bare (a ++ b) = bare a ++ bare b :=
  spelled_append a b

/-- Without references nothing changes. -/
theorem bare_of_forall {ls : List Lexeme} (h : ∀ n, .reference n ∉ ls) : bare ls = ls := by
  rw [bare, spelled, replacedLexemes, replaced_eq_flatMap h, List.flatMap_singleton']

@[simp]
theorem bare_chars (cs : List Char) : bare (cs.map .char) = cs.map .char :=
  bare_of_forall (by simp)

@[simp]
theorem bare_nil : bare [] = [] := rfl

@[simp]
theorem bare_char (c : Char) (ls : List Lexeme) : bare (.char c :: ls) = .char c :: bare ls := rfl

@[simp]
theorem bare_named (n : List Char) (ls : List Lexeme) :
    bare (.named n :: ls) = .named n :: bare ls := rfl

@[simp]
theorem bare_reference (n : List Char) (ls : List Lexeme) :
    bare (.reference n :: ls) = (Lexeme.reference n).chars.map .char ++ bare ls := rfl

/-- A step in the middle of a reference goes on with it, completes it or gives it up. -/
theorem step_within (inside : Bool) (read : List Char) (c : Char) :
    (∃ inside', step (.within inside read) c = ([], .within inside' (c :: read)) ∧ isPlain c) ∨
      (step (.within inside read) c = ([.reference read.reverse], .plain) ∧ c = '}') ∨
        step (.within inside read) c =
          (('{' :: read.reverse).map .char ++ (stepPlain c).1, (stepPlain c).2) := by
  cases inside with
  | false =>
    by_cases start : isNameStart c
    · refine .inl ⟨true, ?_, isPlain_of_isNameChar (isNameChar_of_isNameStart start)⟩
      simp [Mode.within, step, start]
    · refine .inr (.inr ?_)
      simp [Mode.within, step, start, stepAfter]
  | true =>
    by_cases more : isNameChar c
    · refine .inl ⟨true, ?_, isPlain_of_isNameChar more⟩
      simp [Mode.within, step, more]
    by_cases point : c = '.'
    · subst point
      exact .inl ⟨false, rfl, rfl⟩
    by_cases brace : c = '}'
    · subst brace
      exact .inr (.inl ⟨rfl, rfl⟩)
    · refine .inr (.inr ?_)
      simp [Mode.within, step, more, point, brace, stepAfter]

/-- In the middle of a reference a text is read as if nothing were open, up to references. -/
theorem bare_readAll_within (inside : Bool) (read text : List Char) :
    (readAll (.within inside read) text).map bare =
      (readAll .plain text).map fun ls => ('{' :: read.reverse).map .char ++ bare ls := by
  induction text generalizing inside read with
  | nil =>
    have given : bare (('{' :: read.reverse).map .char) = ('{' :: read.reverse).map .char :=
      bare_chars _
    cases inside <;> simpa [Mode.within, finish, Except.map, bare, spelled] using given
  | cons c rest ih =>
    rw [readAll_cons, readAll_cons, step, map_map, map_map]
    rcases step_within inside read c with ⟨inside', here, plain⟩ | ⟨here, rfl⟩ | here
    · -- The character is held back with the others; later on they are given up or not.
      have later := ih inside' (c :: read)
      rw [here, stepPlain_of_isPlain plain]
      simp only [List.nil_append, bare_append]
      rw [later]
      simp
    · rw [here, stepPlain_of_isPlain rfl]
      simp [Lexeme.chars]
    · rw [here]
      simp only [bare_append, bare_chars, List.append_assoc]

/-- Whether a character ends a marker and the colon that may begin one. -/
def endsMarker (c : Char) : Bool :=
  !isNameChar c && c != ':'

/-- A character that ends markers is read as if nothing stood before it, up to references. -/
theorem bare_readAll_of_ends {mode : Mode} {last : List Lexeme} {c : Char} {rest : List Char}
    (hm : finish mode = .ok last) (hc : endsMarker c) :
    (readAll mode (c :: rest)).map bare =
      (readAll .plain (c :: rest)).map fun ls => bare last ++ bare ls := by
  simp only [endsMarker, Bool.and_eq_true, Bool.not_eq_true', bne_iff_ne] at hc
  obtain ⟨noName, noColon⟩ := hc
  -- A marker ends, a literal cannot be open, and a reference that is open is completed or given up:
  -- up to references it is text in both cases.
  cases mode with
  | plain =>
    cases hm
    rfl
  | colon =>
    cases hm
    have noStart : isNameStart c = false := by
      by_contra h
      rw [isNameChar_of_isNameStart (by simpa using h)] at noName
      cases noName
    rw [readAll_cons, readAll_cons]
    simp [step, noColon, noStart, stepAfter, map_map]
  | name read =>
    cases hm
    rw [readAll_cons, readAll_cons]
    simp [step, noName, map_map]
  | literal read => cases hm
  | escape read => cases hm
  | segmentStart read =>
    cases hm
    rw [bare_chars]
    exact bare_readAll_within false read _
  | segment read =>
    cases hm
    rw [bare_chars]
    exact bare_readAll_within true read _

/-- A text and one behind it that ends markers are read one after the other, up to references. -/
theorem bare_lexemes_append {a b : List Char} {c : Char} {la lb : List Lexeme}
    (ha : lexemes a = .ok la) (hb : lexemes (c :: b) = .ok lb) (hc : endsMarker c) :
    ∃ ls, lexemes (a ++ c :: b) = .ok ls ∧ bare ls = bare la ++ bare lb := by
  rw [lexemes_eq_ok_iff] at ha hb
  unfold readAll at ha
  -- The first text can be read to its end, so nothing but a reference or a marker is open behind it.
  cases hm : finish (readFrom .plain a).2 with
  | error open_ =>
    rw [hm] at ha
    cases ha
  | ok last =>
    rw [hm] at ha
    cases ha
    have rest : (readAll (readFrom .plain a).2 (c :: b)).map bare =
        (readAll .plain (c :: b)).map fun ls => bare last ++ bare ls :=
      bare_readAll_of_ends hm hc
    rw [hb] at rest
    cases hrest : readAll (readFrom .plain a).2 (c :: b) with
    | error open_ =>
      rw [hrest] at rest
      cases rest
    | ok more =>
      rw [hrest] at rest
      have same : bare more = bare last ++ bare lb := Except.ok.inj rest
      refine ⟨(readFrom .plain a).1 ++ more, ?_, ?_⟩
      · rw [lexemes_eq_ok_iff, readAll_append, hrest]
        rfl
      · rw [bare_append, bare_append, same, List.append_assoc]

/-- **Plain texts in the place of references are read as characters**, up to references that they
may make, when none goes on with a marker. -/
theorem exists_lexemes_replaced {text : List Char} {ls : List Lexeme} {f : List Char → List Char}
    (h : lexemes text = .ok ls)
    (hf : ∀ n, .reference n ∈ ls →
      (∃ c rest, f n = c :: rest ∧ endsMarker c) ∧ ∀ c ∈ f n, isPlain c) :
    ∃ ls', lexemes (replacedText f ls) = .ok ls' ∧ bare ls' = spelled f ls := by
  -- A text has no reference or is cut by one in two that are read as if they were alone.
  induction h using lexemes_induction with
  | whole text ls h none =>
    rw [replacedText, replaced_eq_flatMap none, ← textOf, textOf_lexemes h]
    refine ⟨ls, h, ?_⟩
    rw [bare_of_forall none, spelled, replacedLexemes, replaced_eq_flatMap none,
      List.flatMap_singleton']
  | cut a la n b lb ha hb _ path iha ihb =>
    obtain ⟨⟨c, cs, starts, ends⟩, plain⟩ := hf n (by simp)
    obtain ⟨front, hfront, sameFront⟩ := iha fun n hn => hf n (by simp [hn])
    obtain ⟨rest, hrest, sameRest⟩ := ihb fun n hn => hf n (by simp [hn])
    have behind := (Settled.of_isPlain plain).lexemes_append hrest
    rw [starts] at behind
    obtain ⟨ls', hls, same⟩ := bare_lexemes_append hfront behind ends
    refine ⟨ls', ?_, ?_⟩
    · simpa [starts] using hls
    · rw [same, sameFront, bare_append, bare_chars, sameRest]
      simp [spelled, starts]

/-! ## Statements -/

/-- **A text with plain texts in the place of its references is bound as the text itself**: every
marker has its value, and its placeholder stands where it stood. -/
theorem bindParameters_replaced {d : Dialect} {named : List (String × Value)}
    {positional : List Value} {text : List Char} {ls : List Lexeme} {f : List Char → List Char}
    (h : lexemes text = .ok ls) (binds : Binds named positional ls)
    (hf : ∀ n, .reference n ∈ ls →
      (∃ c rest, f n = c :: rest ∧ endsMarker c) ∧ ∀ c ∈ f n, isPlain c) :
    bindParameters d named positional (String.ofList (replacedText f ls)) =
      .ok ⟨String.ofList (filled d 0 (spelled f ls)), markerValues named positional ls⟩ := by
  obtain ⟨ls', hls, same⟩ := exists_lexemes_replaced h hf
  have binds' : Binds named positional ls' := by
    rw [← binds_spelled_iff (f := fun n => (Lexeme.reference n).chars), ← bare, same,
      binds_spelled_iff]
    exact binds
  have values : markerValues named positional ls' = markerValues named positional ls := by
    rw [← markerValues_spelled (f := fun n => (Lexeme.reference n).chars), ← bare, same,
      markerValues_spelled]
  have text' : filled d 0 ls' = filled d 0 (spelled f ls) := by rw [← filled_bare, same]
  simp only [bindParameters, String.toList_ofList, hls]
  rw [← values, ← text']
  simp [binds'.count, placeValues_eq binds', bind, Except.bind, pure, Except.pure]

end Orm.Sql
