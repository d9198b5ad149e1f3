import Mathlib.Data.List.Basic
import Orm.Sql.Reference

/-!
# `Proofs.Sql.Lexing` — reading a text part by part

The reader goes through a text once and remembers what it is in the middle of, so what a part of a
text is read as depends on what stands before it. Two kinds of parts are read on their own. A part
that leaves nothing open may be followed by anything, and a part that starts with a break may follow
anything but an open literal, for a break ends whatever else the reader is in the middle of.

A reference that is found cuts the text it is found in: what stands before it and what stands behind
it are read as if they were alone. With this a text can be put together again with other texts in
the place of its references.

## Contents
- **Reading to the end.** `readAll`, `lexemes_eq_ok_iff`.
- **Breaks.** `isBreak`, `StartsApart`, `readAll_of_break`, `lexemes_append`.
- **Texts without quotes.** `exists_lexemes`, `braces_of_reference`.
- **Settled parts.** `isPlain`, `Settled`, `Settled.lexemes_append`.
- **Names.** `isName`, `isPath`.
- **Cuts.** `ClosedIn`, `CutBy`, `readAll_cut`, `lexemes_cut`, `lexemes_induction`.
- **References.** `lexemes_reference_iff`.
- **Replacing references.** `replaced`, `lexemes_replacedText`, `substituteLexemes_eq`.
-/

namespace Orm.Sql

/-! ## Reading to the end -/

/-- The lexemes of the rest of a text from a mode on; a literal that stays open holds this text. -/
def readAll (mode : Mode) (text : List Char) : Except (List Char) (List Lexeme) :=
  (finish (readFrom mode text).2).map ((readFrom mode text).1 ++ ·)

/-- What `readAll` finds are the lexemes of the text. -/
theorem lexemes_eq_ok_iff {text : List Char} {ls : List Lexeme} :
    lexemes text = .ok ls ↔ readAll .plain text = .ok ls := by
  simp only [lexemes, readAll]
  split
  · next last h => simp [h, Except.map]
  · next last h => simp [h, Except.map]

@[simp]
theorem readAll_nil (mode : Mode) : readAll mode [] = finish mode := by
  cases h : finish mode <;> simp [readAll, readFrom, Except.map, h]

/-- One character is read, and then the rest. -/
theorem readAll_cons (mode : Mode) (c : Char) (rest : List Char) :
    readAll mode (c :: rest) = (readAll (step mode c).2 rest).map ((step mode c).1 ++ ·) := by
  simp only [readAll, readFrom]
  cases finish (readFrom (step mode c).2 rest).2 <;> simp [Except.map]

/-- Texts in a row are read in a row. -/
theorem readFrom_append (mode : Mode) (a b : List Char) :
    readFrom mode (a ++ b) = ((readFrom mode a).1 ++ (readFrom (readFrom mode a).2 b).1,
      (readFrom (readFrom mode a).2 b).2) := by
  induction a generalizing mode with
  | nil => simp [readFrom]
  | cons c rest ih => simp [readFrom, ih]

theorem readAll_append (mode : Mode) (a b : List Char) :
    readAll mode (a ++ b) =
      (readAll (readFrom mode a).2 b).map ((readFrom mode a).1 ++ ·) := by
  simp only [readAll, readFrom_append]
  cases finish (readFrom (readFrom mode a).2 b).2 <;> simp [Except.map]

/-! ## Breaks -/

/-- Whether a character ends whatever the reader is in the middle of, literals apart. -/
def isBreak (c : Char) : Bool :=
  !isNameChar c && c != ':' && c != '.' && c != '}'

/-- Whether a text starts with a break or not at all. -/
def StartsApart (text : List Char) : Prop :=
  ∀ c ∈ text.head?, isBreak c

instance (text : List Char) : Decidable (StartsApart text) :=
  decidable_of_iff (text.head?.all isBreak = true) (by cases text <;> simp [StartsApart])

/-- A name goes on with what it may start with. -/
theorem isNameChar_of_isNameStart {c : Char} (h : isNameStart c) : isNameChar c := by
  simp only [isNameStart, isNameChar, Char.isAlphanum, Bool.or_eq_true] at h ⊢
  tauto

/-- A break completes what is held back and is read as if nothing stood before it. -/
theorem step_of_break {mode : Mode} {last : List Lexeme} {c : Char} (hm : finish mode = .ok last)
    (hc : isBreak c) : step mode c = (last ++ (stepPlain c).1, (stepPlain c).2) := by
  simp only [isBreak, Bool.and_eq_true, Bool.not_eq_true', bne_iff_ne] at hc
  obtain ⟨⟨⟨noName, noColon⟩, noPoint⟩, noBrace⟩ := hc
  have noStart : isNameStart c = false := by
    by_contra h
    rw [isNameChar_of_isNameStart (by simpa using h)] at noName
    cases noName
  cases mode with
  | plain =>
    cases hm
    rfl
  | colon =>
    cases hm
    simp [step, noColon, noStart, stepAfter]
  | name read =>
    cases hm
    simp [step, noName]
  | literal read => cases hm
  | escape read => cases hm
  | segmentStart read =>
    cases hm
    simp [step, noStart, stepAfter]
  | segment read =>
    cases hm
    simp [step, noName, noPoint, noBrace, stepAfter]

/-- A text that starts with a break is read on its own. -/
theorem readAll_of_break {mode : Mode} {last : List Lexeme} {text : List Char}
    (hm : finish mode = .ok last) (ht : StartsApart text) :
    readAll mode text = (readAll .plain text).map (last ++ ·) := by
  cases text with
  | nil =>
    rw [readAll_nil, hm]
    simp [Except.map, finish]
  | cons c rest =>
    have hc : isBreak c := ht c rfl
    rw [readAll_cons, readAll_cons, step_of_break hm hc, step]
    cases readAll (stepPlain c).2 rest <;> simp [Except.map]

/-- A text and one that starts with a break behind it are read one after the other. -/
theorem lexemes_append {a b : List Char} {la lb : List Lexeme} (ha : lexemes a = .ok la)
    (hb : lexemes b = .ok lb) (apart : StartsApart b) : lexemes (a ++ b) = .ok (la ++ lb) := by
  rw [lexemes_eq_ok_iff] at ha hb ⊢
  rw [readAll_append]
  unfold readAll at ha
  cases hm : finish (readFrom .plain a).2 with
  | error open_ =>
    rw [hm] at ha
    cases ha
  | ok last =>
    rw [hm] at ha
    cases ha
    rw [readAll_of_break hm apart, hb]
    simp [Except.map]

/-! ## Texts without quotes -/

theorem exists_finish_stepPlain {c : Char} (noQuote : c ≠ '\x27') :
    ∃ last, finish (stepPlain c).2 = .ok last := by
  unfold stepPlain
  rw [if_neg noQuote]
  split_ifs <;> exact ⟨_, rfl⟩

/-- Only a quote opens a literal. -/
theorem exists_finish_step {mode : Mode} {last : List Lexeme} {c : Char}
    (closed : finish mode = .ok last) (noQuote : c ≠ '\x27') :
    ∃ last, finish (step mode c).2 = .ok last := by
  have afresh := exists_finish_stepPlain noQuote
  cases mode with
  | plain => exact afresh
  | colon =>
    simp only [step, stepAfter]
    split_ifs
    · exact ⟨_, rfl⟩
    · exact ⟨_, rfl⟩
    · exact afresh
  | name read =>
    simp only [step]
    split_ifs
    · exact ⟨_, rfl⟩
    · exact afresh
  | literal read => cases closed
  | escape read => cases closed
  | segmentStart read =>
    simp only [step, stepAfter]
    split_ifs
    · exact ⟨_, rfl⟩
    · exact afresh
  | segment read =>
    simp only [step, stepAfter]
    split_ifs
    · exact ⟨_, rfl⟩
    · exact ⟨_, rfl⟩
    · exact ⟨_, rfl⟩
    · exact afresh

/-- A text without quotes can be read. -/
theorem exists_lexemes {text : List Char} (noQuote : '\x27' ∉ text) :
    ∃ ls, lexemes text = .ok ls := by
  have more : ∀ (mode : Mode) (last : List Lexeme), finish mode = .ok last →
      ∃ ls, readAll mode text = .ok ls := by
    induction text with
    | nil => exact fun mode last closed => ⟨last, (readAll_nil mode).trans closed⟩
    | cons c rest ih =>
      intro mode last closed
      obtain ⟨first, others⟩ := List.ne_and_not_mem_of_not_mem_cons noQuote
      obtain ⟨next, closed⟩ := exists_finish_step closed first.symm
      obtain ⟨ls, read⟩ := ih others _ next closed
      exact ⟨_, by rw [readAll_cons, read]; rfl⟩
  obtain ⟨ls, read⟩ := more .plain [] rfl
  exact ⟨ls, lexemes_eq_ok_iff.mpr read⟩

/-- A text that refers to something has both braces. -/
theorem braces_of_reference {text : List Char} {ls : List Lexeme} {n : List Char}
    (read : lexemes text = .ok ls) (mem : .reference n ∈ ls) : '{' ∈ text ∧ '}' ∈ text := by
  have inside : ∀ c ∈ (Lexeme.reference n).chars, c ∈ text := fun c hc => by
    rw [← textOf_lexemes read]
    exact List.mem_flatMap.mpr ⟨_, mem, hc⟩
  exact ⟨inside _ (by simp [Lexeme.chars]), inside _ (by simp [Lexeme.chars])⟩

/-! ## Settled parts -/

/-- Whether a character is read as itself wherever nothing is open. -/
def isPlain (c : Char) : Bool :=
  c != '\x27' && c != '?' && c != ':' && c != '{'

/-- A text that is read as lexemes and leaves nothing open. -/
def Settled (text : List Char) (ls : List Lexeme) : Prop :=
  readFrom .plain text = (ls, .plain)

theorem stepPlain_of_isPlain {c : Char} (h : isPlain c) : stepPlain c = ([.char c], .plain) := by
  simp only [isPlain, Bool.and_eq_true, bne_iff_ne] at h
  obtain ⟨⟨⟨noQuote, noMark⟩, noColon⟩, noBrace⟩ := h
  simp [stepPlain, noQuote, noMark, noColon, noBrace]

/-- What a name consists of is plain. -/
theorem isPlain_of_isNameChar {c : Char} (h : isNameChar c) : isPlain c := by
  simp only [isPlain, Bool.and_eq_true, bne_iff_ne]
  refine ⟨⟨⟨?_, ?_⟩, ?_⟩, ?_⟩ <;> rintro rfl <;> cases h

namespace Settled

theorem nil : Settled [] [] := rfl

/-- Settled texts in a row are settled. -/
theorem append {a b : List Char} {la lb : List Lexeme} (ha : Settled a la) (hb : Settled b lb) :
    Settled (a ++ b) (la ++ lb) := by
  unfold Settled at *
  rw [readFrom_append, ha, hb]

/-- Plain characters are settled. -/
theorem of_isPlain {text : List Char} (h : ∀ c ∈ text, isPlain c) :
    Settled text (text.map .char) := by
  induction text with
  | nil => exact nil
  | cons c rest ih =>
    have here : step .plain c = ([.char c], .plain) :=
      stepPlain_of_isPlain (h c List.mem_cons_self)
    have later := ih fun c' hc' => h c' (List.mem_cons_of_mem c hc')
    unfold Settled at later ⊢
    rw [readFrom, here, later]
    rfl

/-- What follows a settled text is read as if it were alone. -/
theorem readAll_append {a b : List Char} {la : List Lexeme} (ha : Settled a la) :
    readAll .plain (a ++ b) = (readAll .plain b).map (la ++ ·) := by
  unfold Settled at ha
  rw [Sql.readAll_append, ha]

/-- A settled text and one behind it are read one after the other. -/
theorem lexemes_append {a b : List Char} {la lb : List Lexeme} (ha : Settled a la)
    (hb : lexemes b = .ok lb) : lexemes (a ++ b) = .ok (la ++ lb) := by
  rw [lexemes_eq_ok_iff] at hb ⊢
  rw [ha.readAll_append, hb]
  rfl

/-- A settled text has lexemes. -/
theorem lexemes {text : List Char} {ls : List Lexeme} (h : Settled text ls) :
    lexemes text = .ok ls := by
  have alone : Sql.lexemes (text ++ []) = .ok (ls ++ []) := h.lexemes_append rfl
  simpa using alone

end Settled

/-! ## Names -/

/-- Whether a text is one name. -/
def isName : List Char → Bool
  | [] => false
  | c :: rest => isNameStart c && rest.all isNameChar

/-- Whether a text goes on a name, or when `inside` is `false` starts one, and names with points
between them follow. -/
def goesOn : Bool → List Char → Bool
  | inside, [] => inside
  | false, c :: rest => isNameStart c && goesOn true rest
  | true, c :: rest => if isNameChar c then goesOn true rest else c == '.' && goesOn false rest

/-- Whether a text consists of names with points between them. -/
def isPath (text : List Char) : Bool :=
  goesOn false text

/-- A point starts afresh. -/
theorem goesOn_append_point (inside : Bool) (a b : List Char) :
    goesOn inside (a ++ '.' :: b) = (goesOn inside a && isPath b) := by
  induction a generalizing inside with
  | nil =>
    have noStart : isNameStart '.' = false := rfl
    have noChar : isNameChar '.' = false := rfl
    cases inside <;> simp [goesOn, isPath, noStart, noChar]
  | cons c rest ih =>
    cases inside with
    | false => simp [goesOn, ih, Bool.and_assoc]
    | true =>
      simp only [List.cons_append, goesOn, ih]
      split
      · rfl
      · rw [Bool.and_assoc]

/-- Paths with a point between them are a path. -/
theorem isPath_append_point (a b : List Char) : isPath (a ++ '.' :: b) = (isPath a && isPath b) :=
  goesOn_append_point false a b

/-- A name is a path. -/
theorem isPath_of_isName {text : List Char} (h : isName text) : isPath text := by
  cases text with
  | nil => cases h
  | cons c rest =>
    simp only [isName, Bool.and_eq_true] at h
    have more : ∀ cs : List Char, cs.all isNameChar = true → goesOn true cs = true := by
      intro cs hcs
      induction cs with
      | nil => rfl
      | cons c' cs ih =>
        simp only [List.all_cons, Bool.and_eq_true] at hcs
        simp [goesOn, hcs.1, ih hcs.2]
    simp [isPath, goesOn, h.1, more rest h.2]

/-- A path consists of names and points. -/
theorem isNameChar_or_point {text : List Char} (h : isPath text) :
    ∀ c ∈ text, isNameChar c ∨ c = '.' := by
  have more : ∀ (inside : Bool) (cs : List Char), goesOn inside cs →
      ∀ c ∈ cs, isNameChar c ∨ c = '.' := by
    intro inside cs
    induction cs generalizing inside with
    | nil => simp
    | cons c' cs ih =>
      intro h
      cases inside with
      | false =>
        simp only [goesOn, Bool.and_eq_true] at h
        exact List.forall_mem_cons.mpr ⟨.inl (isNameChar_of_isNameStart h.1), ih true h.2⟩
      | true =>
        simp only [goesOn] at h
        split at h
        · next name => exact List.forall_mem_cons.mpr ⟨.inl name, ih true h⟩
        · simp only [Bool.and_eq_true, beq_iff_eq] at h
          exact List.forall_mem_cons.mpr ⟨.inr h.1, ih false h.2⟩
  exact more false text h

/-- What a path consists of is plain. -/
theorem isPlain_of_isPath {text : List Char} (h : isPath text) : ∀ c ∈ text, isPlain c := by
  intro c hc
  rcases isNameChar_or_point h c hc with name | rfl
  · exact isPlain_of_isNameChar name
  · rfl

/-! ## Cuts -/

/-- The mode in the middle of a reference: inside a name, or where one must start. -/
def Mode.within : Bool → List Char → Mode
  | true, read => .segment read
  | false, read => .segmentStart read

/-- The end of a text completes no reference. -/
theorem not_reference_of_finish {mode : Mode} {last : List Lexeme} (h : finish mode = .ok last)
    (n : List Char) : Lexeme.reference n ∉ last := by
  cases mode <;> cases h <;> simp

theorem not_reference_of_stepPlain (c : Char) (n : List Char) :
    Lexeme.reference n ∉ (stepPlain c).1 := by
  unfold stepPlain
  split_ifs <;> simp

/-- One character outside of everything opens a reference exactly if it is a brace. -/
theorem stepPlain_within (c : Char) :
    (c = '{' ∧ stepPlain c = ([], .within false [])) ∨
      ∀ inside read, (stepPlain c).2 ≠ .within inside read := by
  by_cases hc : c = '{'
  · left
    subst hc
    exact ⟨rfl, rfl⟩
  · right
    intro inside read
    unfold stepPlain
    split_ifs <;> cases inside <;> simp [Mode.within]

/-- What a step does for references: it completes one, opens one, goes on with one, or has nothing
to do with any. -/
inductive StepsTo (mode : Mode) (c : Char) : Prop
  /-- The brace that ends a reference. -/
  | closes (read : List Char) (at_ : mode = .within true read) (char : c = '}')
      (here : step mode c = ([.reference read.reverse], .plain))
  /-- The brace that starts one. -/
  | opens (last : List Lexeme) (at_ : finish mode = .ok last) (char : c = '{')
      (here : step mode c = (last, .within false []))
  /-- A character of the name. -/
  | grows (inside inside' : Bool) (read : List Char) (at_ : mode = .within inside read)
      (here : step mode c = ([], .within inside' (c :: read)))
      (name : ∀ u, goesOn inside (c :: u) = goesOn inside' u)
  /-- Anything else. -/
  | apart (none : ∀ n, Lexeme.reference n ∉ (step mode c).1)
      (after : ∀ inside read, (step mode c).2 ≠ .within inside read)

/-- A character that is read afresh opens a reference or has nothing to do with any. -/
theorem stepsTo_of_afresh {mode : Mode} {last : List Lexeme} {c : Char}
    (hm : finish mode = .ok last) (h : step mode c = (last ++ (stepPlain c).1, (stepPlain c).2)) :
    StepsTo mode c := by
  rcases stepPlain_within c with ⟨brace, opened⟩ | shut
  · apply StepsTo.opens last hm brace
    rw [h, opened, List.append_nil]
  · apply StepsTo.apart
    · intro n
      rw [h, List.mem_append, not_or]
      exact ⟨not_reference_of_finish hm n, not_reference_of_stepPlain c n⟩
    · rw [h]
      exact shut

/-- What every step does for references. -/
theorem stepsTo (mode : Mode) (c : Char) : StepsTo mode c := by
  -- Only the two modes in a reference can complete one or go on with it. The others either begin
  -- afresh with the character or stay apart from references.
  cases mode with
  | plain => exact stepsTo_of_afresh rfl rfl
  | colon =>
    by_cases cast : c = ':'
    · apply StepsTo.apart <;> simp [step, cast, Mode.within]
    · by_cases start : isNameStart c
      · apply StepsTo.apart <;> simp [step, cast, start, Mode.within]
      · apply stepsTo_of_afresh rfl
        simp [step, cast, start, stepAfter]
  | name read =>
    by_cases more : isNameChar c
    · apply StepsTo.apart <;> simp [step, more, Mode.within]
    · apply stepsTo_of_afresh rfl
      simp [step, more]
  | literal read =>
    apply StepsTo.apart
    · intro n
      unfold step
      split_ifs <;> simp
    · intro inside read'
      unfold step
      split_ifs <;> cases inside <;> simp [Mode.within]
  | escape read => apply StepsTo.apart <;> simp [step, Mode.within]
  | segmentStart read =>
    by_cases start : isNameStart c
    · apply StepsTo.grows false true read rfl
      · simp [step, start, Mode.within]
      · simp [goesOn, start]
    · apply stepsTo_of_afresh rfl
      simp [step, start, stepAfter]
  | segment read =>
    by_cases more : isNameChar c
    · apply StepsTo.grows true true read rfl
      · simp [step, more, Mode.within]
      · simp [goesOn, more]
    by_cases point : c = '.'
    · subst point
      exact .grows true false read rfl rfl fun u => rfl
    by_cases brace : c = '}'
    · subst brace
      exact .closes read rfl rfl rfl
    · apply stepsTo_of_afresh rfl
      simp [step, more, point, brace, stepAfter]

/-- An item that is not in the first of two lists is in the second. -/
theorem split_later {α : Type} {a b before after : List α} {x : α}
    (h : a ++ b = before ++ x :: after) (hx : x ∉ a) :
    ∃ before', before = a ++ before' ∧ b = before' ++ x :: after := by
  rcases List.append_eq_append_iff.mp h with ⟨between, front, rest⟩ | ⟨between, front, rest⟩
  · exact ⟨between, front, rest⟩
  · cases between with
    | nil =>
      rw [List.append_nil] at front
      exact ⟨[], by simp [front], by simpa using rest.symm⟩
    | cons y ys =>
      obtain ⟨rfl, -⟩ := List.cons.inj rest
      exact absurd (by simp [front]) hx

/-- A reference that is open in front of a text is closed in it. The text goes on with its name, and what
stands behind the reference is read as if it were alone. -/
def ClosedIn (inside : Bool) (read text n : List Char) (after : List Lexeme) : Prop :=
  ∃ u rest, text = u ++ '}' :: rest ∧ n = read.reverse ++ u ∧ goesOn inside u ∧
    readAll .plain rest = .ok after

/-- A reference stands within a text. What stands before it is read as if the text ended there, and what
stands behind it as if it were alone. -/
def CutBy (mode : Mode) (text : List Char) (before : List Lexeme) (n : List Char)
    (after : List Lexeme) : Prop :=
  ∃ front rest, text = front ++ '{' :: n ++ '}' :: rest ∧ isPath n ∧
    readAll mode front = .ok before ∧ readAll .plain rest = .ok after

section

variable {mode : Mode} {c : Char} {text n : List Char} {before after : List Lexeme}

/-- One more character in front of a text is read before all that stands before the reference. -/
theorem CutBy.cons {mode' : Mode} {out : List Lexeme} (h : CutBy mode' text before n after)
    (here : step mode c = (out, mode')) : CutBy mode (c :: text) (out ++ before) n after := by
  obtain ⟨front, rest, rfl, path, front_read, rest_read⟩ := h
  refine ⟨c :: front, rest, rfl, path, ?_, rest_read⟩
  rw [readAll_cons, here, front_read]
  rfl

/-- A character of the name comes before the rest of it. -/
theorem ClosedIn.cons {inside inside' : Bool} {read : List Char}
    (h : ClosedIn inside' (c :: read) text n after)
    (name : ∀ u, goesOn inside (c :: u) = goesOn inside' u) :
    ClosedIn inside read (c :: text) n after := by
  obtain ⟨u, rest, rfl, rfl, more, rest_read⟩ := h
  exact ⟨c :: u, rest, rfl, by simp, (name u).trans more, rest_read⟩

/-- A reference that is open behind its brace stands there. -/
theorem ClosedIn.opened {last : List Lexeme} (h : ClosedIn false [] text n after)
    (at_ : finish mode = .ok last) : CutBy mode ('{' :: text) last n after := by
  obtain ⟨u, rest, rfl, rfl, path, rest_read⟩ := h
  refine ⟨[], rest, rfl, path, ?_, rest_read⟩
  rw [readAll_nil, at_]

/-- A mode in a reference tells what has been read of it. -/
theorem Mode.within_inj {inside inside' : Bool} {read read' : List Char}
    (h : Mode.within inside read = .within inside' read') : inside = inside' ∧ read = read' := by
  cases inside <;> cases inside' <;> cases h <;> exact ⟨rfl, rfl⟩

theorem Mode.plain_ne_within (inside : Bool) (read : List Char) : Mode.plain ≠ .within inside read := by
  cases inside <;> exact nofun

/-- **A reference cuts the text.** It was opened before the text or inside of it. In both cases the
text behind it is read as if it were alone, and so is what stands before it. -/
theorem readAll_cut (h : readAll mode text = .ok (before ++ .reference n :: after)) :
    (∃ inside read, mode = .within inside read ∧ before = [] ∧ ClosedIn inside read text n after) ∨
      CutBy mode text before n after := by
  -- The mode changes with each character, and what stands before the reference loses its front, so
  -- the induction is for any of them.
  induction text generalizing mode before with
  | nil =>
    rw [readAll_nil] at h
    exact absurd (by simp) (not_reference_of_finish h n)
  | cons c text ih =>
    rw [readAll_cons] at h
    cases later : readAll (step mode c).2 text with
    | error open_ => simp [later, Except.map] at h
    | ok more =>
      rw [later] at h
      have joined : (step mode c).1 ++ more = before ++ .reference n :: after := Except.ok.inj h
      cases stepsTo mode c with
      | closes read at_ char here =>
        rw [here] at joined later
        -- The character closes a reference: either that is the one, or it stands before the one.
        cases before with
        | nil =>
          obtain ⟨same, rfl⟩ := List.cons.inj joined
          cases same
          exact .inl ⟨true, read, at_, rfl, [], text, by rw [char]; rfl, by simp, rfl, later⟩
        | cons l before' =>
          obtain ⟨rfl, rfl⟩ := List.cons.inj joined
          rcases ih later with ⟨inside, read', impossible, -⟩ | cut
          · exact absurd impossible (Mode.plain_ne_within _ _)
          · exact .inr (cut.cons here)
      | opens last at_ char here =>
        rw [here] at joined later
        -- A reference is opened here. Behind this character it is open in front of the text.
        obtain ⟨before', rfl, rfl⟩ := split_later joined (not_reference_of_finish at_ n)
        rcases ih later with ⟨inside, read, same, rfl, closed⟩ | cut
        · have opened : Mode.within false [] = .within inside read := same
          obtain ⟨rfl, rfl⟩ := Mode.within_inj opened
          rw [char, List.append_nil]
          exact .inr (closed.opened at_)
        · exact .inr (cut.cons here)
      | grows inside inside' read at_ here name =>
        rw [here] at joined later
        cases joined
        rcases ih later with ⟨inside'', read', same, rfl, closed⟩ | cut
        · have grown : Mode.within inside' (c :: read) = .within inside'' read' := same
          obtain ⟨rfl, rfl⟩ := Mode.within_inj grown
          exact .inl ⟨inside, read, at_, rfl, closed.cons name⟩
        · exact .inr (cut.cons here)
      | apart none after_ =>
        obtain ⟨before', rfl, rfl⟩ := split_later joined (none n)
        rcases ih later with ⟨inside, read, impossible, -⟩ | cut
        · exact absurd impossible (after_ inside read)
        · exact .inr (cut.cons rfl)

end

/-- **A reference cuts the text.** What stands before it and what stands behind it are read as if
they were alone. -/
theorem lexemes_cut {text : List Char} {before after : List Lexeme} {n : List Char}
    (h : lexemes text = .ok (before ++ .reference n :: after)) :
    ∃ front rest, text = front ++ '{' :: n ++ '}' :: rest ∧ isPath n ∧
      lexemes front = .ok before ∧ lexemes rest = .ok after := by
  simp only [lexemes_eq_ok_iff] at h ⊢
  rcases readAll_cut h with ⟨inside, read, impossible, -⟩ | found
  · exact absurd impossible (Mode.plain_ne_within _ _)
  · exact found

/-- What a reference names is a path. -/
theorem isPath_of_mem {text : List Char} {ls : List Lexeme} {n : List Char}
    (h : lexemes text = .ok ls) (hn : .reference n ∈ ls) : isPath n := by
  obtain ⟨before, after, rfl⟩ := List.append_of_mem hn
  obtain ⟨front, rest, rfl, path, -⟩ := lexemes_cut h
  exact path

/-- A text is put together of texts without references and the references between them. -/
@[elab_as_elim]
theorem lexemes_induction {motive : ∀ text ls, lexemes text = .ok ls → Prop}
    (whole : ∀ text ls (h : lexemes text = .ok ls), (∀ n, .reference n ∉ ls) → motive text ls h)
    (cut : ∀ a la n b lb (ha : lexemes a = .ok la) (hb : lexemes b = .ok lb)
      (h : lexemes (a ++ '{' :: n ++ '}' :: b) = .ok (la ++ .reference n :: lb)),
      isPath n → motive a la ha → motive b lb hb → motive _ _ h)
    {text : List Char} {ls : List Lexeme} (h : lexemes text = .ok ls) : motive text ls h := by
  induction hk : ls.length using Nat.strongRecOn generalizing text ls with
  | ind k ih =>
    by_cases none : ∀ n, .reference n ∉ ls
    · exact whole text ls h none
    · push Not at none
      obtain ⟨n, hn⟩ := none
      obtain ⟨before, after, rfl⟩ := List.append_of_mem hn
      obtain ⟨front, rest, rfl, path, hfront, hrest⟩ := lexemes_cut h
      simp only [List.length_append, List.length_cons] at hk
      exact cut front before n rest after hfront hrest h path
        (ih before.length (by omega) hfront rfl) (ih after.length (by omega) hrest rfl)

/-! ## References -/

/-- The names of a reference leave it open until its brace. -/
theorem readFrom_within {inside : Bool} {read u : List Char} (h : goesOn inside u) :
    readFrom (.within inside read) u = ([], .within true (u.reverse ++ read)) := by
  induction u generalizing inside read with
  | nil =>
    cases inside with
    | false => cases h
    | true => rfl
  | cons c rest ih =>
    cases inside with
    | false =>
      simp only [goesOn, Bool.and_eq_true] at h
      have here : step (.within false read) c = ([], .within true (c :: read)) := by
        simp [Mode.within, step, h.1]
      simp [readFrom, here, ih h.2]
    | true =>
      simp only [goesOn] at h
      split at h
      · next more =>
        have here : step (.within true read) c = ([], .within true (c :: read)) := by
          simp [Mode.within, step, more]
        simp [readFrom, here, ih h]
      · simp only [Bool.and_eq_true, beq_iff_eq] at h
        obtain ⟨rfl, later⟩ := h
        have here : step (.within true read) '.' = ([], .within false ('.' :: read)) := rfl
        simp [readFrom, here, ih later]

/-- A path in braces is a reference. -/
theorem Settled.reference {n : List Char} (h : isPath n) :
    Settled (Lexeme.reference n).chars [.reference n] := by
  have opened : readFrom .plain ['{'] = ([], .within false []) := rfl
  have named : readFrom (.within false []) n = ([], .within true (n.reverse ++ [])) :=
    readFrom_within h
  have closed : readFrom (.within true n.reverse) ['}'] = ([.reference n], .plain) := by
    show ([Lexeme.reference n.reverse.reverse] ++ [], Mode.plain) = _
    simp
  have text : (Lexeme.reference n).chars = ['{'] ++ (n ++ ['}']) := by simp [Lexeme.chars]
  unfold Settled
  rw [text, readFrom_append, opened, readFrom_append, named, List.append_nil, closed]
  rfl

/-- Braces make a reference of paths and of nothing else. -/
theorem lexemes_reference_iff {n : List Char} :
    lexemes (Lexeme.reference n).chars = .ok [.reference n] ↔ isPath n := by
  constructor
  · intro h
    exact isPath_of_mem h (by simp)
  · intro h
    exact (Settled.reference h).lexemes

/-! ## Replacing references -/

/-- What lexemes stand for when references stand for what `f` says. -/
def replaced {α : Type} (other : Lexeme → List α) (f : List Char → List α) : List Lexeme → List α
  | [] => []
  | .reference n :: rest => f n ++ replaced other f rest
  | l :: rest => other l ++ replaced other f rest

section

variable {α : Type} {other : Lexeme → List α} {f : List Char → List α}

@[simp]
theorem replaced_nil : replaced other f [] = [] := rfl

@[simp]
theorem replaced_reference (n : List Char) (rest : List Lexeme) :
    replaced other f (.reference n :: rest) = f n ++ replaced other f rest := rfl

@[simp]
theorem replaced_append (a b : List Lexeme) :
    replaced other f (a ++ b) = replaced other f a ++ replaced other f b := by
  induction a with
  | nil => rfl
  | cons l rest ih => cases l <;> simp [replaced, ih]

/-- Without references nothing is replaced. -/
theorem replaced_eq_flatMap {ls : List Lexeme} (h : ∀ n, .reference n ∉ ls) :
    replaced other f ls = ls.flatMap other := by
  induction ls with
  | nil => rfl
  | cons l rest ih =>
    have later := ih fun n hn => h n (List.mem_cons_of_mem l hn)
    cases l with
    | reference n => exact absurd List.mem_cons_self (h n)
    | _ => simp [replaced, later]

end

/-- The text of lexemes with other texts in the place of references. -/
abbrev replacedText (f : List Char → List Char) (ls : List Lexeme) : List Char :=
  replaced Lexeme.chars f ls

/-- Lexemes with others in the place of references. -/
abbrev replacedLexemes (f : List Char → List Lexeme) (ls : List Lexeme) : List Lexeme :=
  replaced (fun l => [l]) f ls

/-- **Texts in the place of references are read on their own** when they start with a break and
leave nothing open. -/
theorem lexemes_replacedText {text : List Char} {ls : List Lexeme} {f : List Char → List Char}
    {k : List Char → List Lexeme} (h : lexemes text = .ok ls)
    (hf : ∀ n, .reference n ∈ ls → f n ≠ [] ∧ StartsApart (f n) ∧ Settled (f n) (k n)) :
    lexemes (replacedText f ls) = .ok (replacedLexemes k ls) := by
  induction h using lexemes_induction with
  | whole text ls h none =>
    rw [replacedText, replaced_eq_flatMap none, replacedLexemes, replaced_eq_flatMap none,
      List.flatMap_singleton', ← textOf, textOf_lexemes h]
    exact h
  | cut a la n b lb ha hb _ path iha ihb =>
    obtain ⟨some, apart, settled⟩ := hf n (by simp)
    have front := iha fun n hn => hf n (by simp [hn])
    have rest := ihb fun n hn => hf n (by simp [hn])
    have behind : StartsApart (f n ++ replacedText f lb) := by
      intro c hc
      rw [List.head?_append_of_ne_nil _ some] at hc
      exact apart c hc
    simpa using lexemes_append front (settled.lexemes_append rest) behind

/-- References that are renamed before they are replaced. -/
theorem replaced_rename {α : Type} (other : Lexeme → List α) (f : List Char → List α)
    (g : List Char → List Char) (ls : List Lexeme) :
    replaced other f (replacedLexemes (fun n => [.reference (g n)]) ls) =
      replaced other (fun n => f (g n)) ls := by
  induction ls with
  | nil => rfl
  | cons l rest ih => cases l <;> simp [replaced, ih]

/-- Substitution writes what it is given for each reference. -/
theorem substituteLexemes_eq {f : String → Except Error String} {g : List Char → List Char}
    {ls : List Lexeme}
    (h : ∀ n, .reference n ∈ ls → f (String.ofList n) = .ok (String.ofList (g n))) :
    substituteLexemes f ls = .ok (replacedText g ls) := by
  induction ls with
  | nil => rfl
  | cons l rest ih =>
    have later := ih fun n hn => h n (List.mem_cons_of_mem _ hn)
    cases l with
    | reference n =>
      simp only [substituteLexemes, h n List.mem_cons_self, later, replacedText, replaced_reference]
      simp [Except.map, bind, Except.bind, pure, Except.pure]
    | _ =>
      simp only [substituteLexemes, later]
      rfl

end Orm.Sql
