import Orm.Proofs.Sql.Spans

/-!
# `Proofs.Sql.Rebinding` — what binding does to a text, and doing it again

Binding a text succeeds exactly if the scan of the text finds as many positional markers as there are
positional values, and no name without a value. It then cuts the text at the bytes of the markers and
writes the placeholders in their places; nothing else changes, and each marker has its value.

A text that is bound is read again when it is bound once more. Its tokens are those of the text before,
with a placeholder instead of each marker. No token becomes longer by that: a colon by itself has
neither a colon nor a name behind it, and a placeholder starts with neither. So placeholders that are
question marks are markers again, and numbered ones are no markers.

## Contents
- **When binding succeeds.** `bound_of_placeValues`, `bindParameters_of_count_ne`,
  `bindParameters_eq_ok_iff`.
- **Markers.** `Marker.value?`, `binds_iff_markers`, `getElem?_markerValues_of_markers`.
- **Bytes.** `textOf_cons`, `Spliced`, `spliced_filled`.
- **The way out.** `placeOr`, `placeOr_textOf`, `placeOr_congr`.
- **Reading again.** `placeholderTokens`, `boundTokens`, `filled_tokenLexemes`, `reads_boundTokens`.
- **Binding again.** `bindParameters_again`, `scan_of_dollar`.
- **The theorem.** `Statement.Places`, `places_of_binds`, `bound_of_tokens`, `bindParameters_places`.
-/

namespace Orm.Sql

open Text Grammar

/-! ## When binding succeeds -/

section

variable {d : Dialect} {named : List (String × Value)} {positional : List Value} {count : Nat}
  {ls : List Lexeme}

/-- Where there are enough positional values, values are placed only if every name has one. -/
theorem bound_of_placeValues {placed : List Char × List Value}
    (enough : countPositional ls = positional.length)
    (h : placeValues d named count positional ls = .ok placed) :
    ∀ n, .named n ∈ ls → (named.lookup (String.ofList n)).isSome := by
  induction ls generalizing count positional placed with
  | nil => simp
  | cons l rest ih =>
    intro n hn
    cases l with
    | positional =>
      cases positional with
      | nil => simp at enough
      | cons value more =>
        obtain ⟨later, run, -⟩ := ok_bind.mp h
        have inRest : .named n ∈ rest := by simpa using hn
        exact ih (by simpa using enough) run n inRest
    | named m =>
      simp only [placeValues] at h
      split at h
      · cases h
      · next value found =>
        obtain ⟨later, run, -⟩ := ok_bind.mp h
        rcases List.mem_cons.mp hn with here | inRest
        · cases here
          simp [found]
        · exact ih (by simpa using enough) run n inRest
    | _ =>
      obtain ⟨later, run, -⟩ := ok_bind.mp h
      have inRest : .named n ∈ rest := by simpa using hn
      exact ih (by simpa using enough) run n inRest

/-- Without as many values as positional markers binding fails. -/
theorem bindParameters_of_count_ne {text : String} (read : lexemes text.toList = .ok ls)
    (other : countPositional ls ≠ positional.length) :
    bindParameters d named positional text =
      .error (.markerCount (countPositional ls) positional.length) := by
  simp only [bindParameters, read]
  simp [other, bind, Except.bind]

/-- **Binding succeeds exactly if every marker has a value**, and what it gives is then known. -/
theorem bindParameters_eq_ok_iff {text : String} {st : Statement} :
    bindParameters d named positional text = .ok st ↔
      ∃ ls, lexemes text.toList = .ok ls ∧ Binds named positional ls ∧
        st = ⟨String.ofList (filled d 0 ls), markerValues named positional ls⟩ := by
  constructor
  · intro h
    obtain ⟨ls, read, more⟩ := ok_bind.mp h
    by_cases enough : countPositional ls = positional.length
    · simp only [enough, ne_eq, not_true_eq_false, if_false] at more
      obtain ⟨placed, run, result⟩ := ok_bind.mp more
      have binds : Binds named positional ls := ⟨enough, bound_of_placeValues enough run⟩
      rw [placeValues_eq binds] at run
      cases run
      cases result
      exact ⟨ls, read, binds, rfl⟩
    · rw [bindParameters_of_count_ne read enough] at h
      cases h
  · rintro ⟨ls, read, binds, rfl⟩
    simp only [bindParameters, read]
    simp [binds.count, placeValues_eq binds, bind, Except.bind, pure, Except.pure]

end

/-! ## Markers -/

/-- Whether a marker is a positional one. -/
def Marker.isPositional : Marker → Bool
  | .positional _ => true
  | .named .. => false

@[simp]
theorem Marker.isPositional_positional (offset : Nat) :
    (Marker.positional offset).isPositional = true := rfl

@[simp]
theorem Marker.isPositional_named (name : String) (span : Span) :
    (Marker.named name span).isPositional = false := rfl

/-- The value of a marker when `left` are the positional values that are left. -/
def Marker.value? (named : List (String × Value)) (left : List Value) : Marker → Option Value
  | .positional _ => left.head?
  | .named name _ => named.lookup name

theorem Scan.positionalCount_eq (s : Scan) :
    s.positionalCount = s.markers.countP Marker.isPositional := by
  unfold positionalCount
  congr 1

section

variable {d : Dialect} {named : List (String × Value)} {positional : List Value} {offset : Nat}
  {ls : List Lexeme}

theorem countP_markersFrom :
    (markersFrom offset ls).countP Marker.isPositional = countPositional ls := by
  induction ls generalizing offset with
  | nil => rfl
  | cons l rest ih =>
    cases l with
    | positional => simp [markersFrom, List.countP_cons, ih]
    | _ => simp [markersFrom, ih]

theorem length_markersFrom : (markersFrom offset ls).length = ls.countP (·.isMarker) := by
  induction ls generalizing offset with
  | nil => rfl
  | cons l rest ih =>
    cases l with
    | positional => simp [markersFrom, Lexeme.isMarker, ih]
    | named n => simp [markersFrom, Lexeme.isMarker, ih]
    | _ => simp [markersFrom, Lexeme.isMarker, ih]

theorem mem_markersFrom_named (offset : Nat) {name : String} :
    (∃ span, .named name span ∈ markersFrom offset ls) ↔ .named name.toList ∈ ls := by
  induction ls generalizing offset with
  | nil => simp [markersFrom]
  | cons l rest ih =>
    cases l with
    | named n =>
      simp only [markersFrom, List.mem_cons, exists_or, ih]
      constructor
      · rintro (⟨span, same⟩ | later)
        · cases same
          simp
        · exact .inr later
      · rintro (same | later)
        · cases same
          exact .inl ⟨_, by rw [String.ofList_toList]⟩
        · exact .inr later
    | _ => simp [markersFrom, ih]

/-- Every marker has a value exactly if the markers of the scan have. -/
theorem binds_iff_markers (offset : Nat) : Binds named positional ls ↔
    (markersFrom offset ls).countP Marker.isPositional = positional.length ∧
      ∀ name span, .named name span ∈ markersFrom offset ls → (named.lookup name).isSome := by
  rw [countP_markersFrom]
  constructor
  · rintro ⟨count, bound⟩
    refine ⟨count, ?_⟩
    intro name span found
    have inText := (mem_markersFrom_named offset).mp ⟨span, found⟩
    simpa using bound _ inText
  · rintro ⟨count, bound⟩
    refine ⟨count, ?_⟩
    intro n hn
    have named' : Lexeme.named (String.ofList n).toList ∈ ls := by rwa [String.toList_ofList]
    obtain ⟨span, found⟩ := (mem_markersFrom_named offset).mpr named'
    exact bound _ span found

/-- **Each marker has its value.** The positional values are used up from left to right. -/
theorem getElem?_markerValues_of_markers (h : Binds named positional ls) (offset i : Nat) :
    (markerValues named positional ls)[i]? = (markersFrom offset ls)[i]?.bind fun m =>
      m.value? named (positional.drop (((markersFrom offset ls).take i).countP Marker.isPositional)) := by
  induction ls generalizing positional offset i with
  | nil => simp [markerValues, markersFrom]
  | cons l rest ih =>
    cases l with
    | positional =>
      obtain ⟨value, more, rfl, later⟩ := h.of_positional
      cases i with
      | zero => simp [markerValues, markersFrom, Marker.value?]
      | succ i =>
        have behind := ih later (offset + byteSize Lexeme.positional.chars) i
        simpa [markerValues, markersFrom, List.countP_cons] using behind
    | named n =>
      have later := h.of_cons (by simp)
      obtain ⟨value, found⟩ := Option.isSome_iff_exists.mp (h.bound n List.mem_cons_self)
      cases i with
      | zero => simp [markerValues, markersFrom, Marker.value?, found]
      | succ i =>
        have behind := ih later (offset + byteSize (Lexeme.named n).chars) i
        simpa [markerValues, markersFrom, found] using behind
    | _ => exact ih (h.of_cons (by simp)) (offset + byteSize (Lexeme.chars _)) i

end

/-! ## Bytes -/

theorem textOf_cons (l : Lexeme) (ls : List Lexeme) : textOf (l :: ls) = l.chars ++ textOf ls := rfl

/-- A text that is cut at spans of bytes, the text starting at byte `offset`, and has other texts in
their places; `count` have been put in before. What stands between the spans stays. -/
inductive Spliced (replacement : Nat → List Char) :
    Nat → Nat → List Span → List Char → List Char → Prop
  | done (offset count : Nat) (text : List Char) : Spliced replacement offset count [] text text
  | next {offset count : Nat} {span : Span} {spans : List Span} {gap piece text out : List Char}
      (start : span.start = offset + byteSize gap) (stop : span.stop = span.start + byteSize piece) :
      Spliced replacement span.stop (count + 1) spans text out →
      Spliced replacement offset count (span :: spans) (gap ++ (piece ++ text))
        (gap ++ (replacement (count + 1) ++ out))

/-- A text in front of the first span stays. -/
theorem Spliced.behind {replacement : Nat → List Char} {offset count : Nat} {spans : List Span}
    {front text out : List Char}
    (h : Spliced replacement (offset + byteSize front) count spans text out) :
    Spliced replacement offset count spans (front ++ text) (front ++ out) := by
  cases h with
  | done => exact .done offset count (front ++ text)
  | next start stop later =>
    rw [← List.append_assoc front, ← List.append_assoc front]
    refine .next ?_ stop later
    rw [start, byteSize_append, Nat.add_assoc]

/-- **Binding cuts a text at the bytes of its markers** and puts a placeholder in the place of each. -/
theorem spliced_filled (d : Dialect) (offset count : Nat) (ls : List Lexeme) :
    Spliced (fun i => (d.placeholderText i).toList) offset count
      ((markersFrom offset ls).map (·.span)) (textOf ls) (filled d count ls) := by
  induction ls generalizing offset count with
  | nil => exact .done offset count []
  | cons l rest ih =>
    have later := ih (offset + byteSize l.chars)
    rw [textOf_cons]
    cases l with
    | positional =>
      show Spliced _ offset count (⟨offset, offset + 1⟩ :: _) ([] ++ (['?'] ++ textOf rest))
        ([] ++ ((d.placeholderText (count + 1)).toList ++ filled d (count + 1) rest))
      exact .next rfl rfl (later (count + 1))
    | named n =>
      show Spliced _ offset count (⟨offset, offset + byteSize (Lexeme.named n).chars⟩ :: _)
        ([] ++ ((Lexeme.named n).chars ++ textOf rest))
        ([] ++ ((d.placeholderText (count + 1)).toList ++ filled d (count + 1) rest))
      exact .next rfl rfl (later (count + 1))
    | _ => exact (later count).behind

/-! ## The way out -/

/-- Placing values, with another way out where a positional marker finds no value. -/
def placeOr (exit : List Lexeme → Except Error (List Char × List Value)) (d : Dialect)
    (named : List (String × Value)) :
    Nat → List Value → List Lexeme → Except Error (List Char × List Value)
  | _, _, [] => .ok ([], [])
  | count, positional, l :: rest =>
    match l with
    | .positional =>
      match positional with
      | [] => exit (l :: rest)
      | value :: positional => do
        let later ← placeOr exit d named (count + 1) positional rest
        return ((d.placeholderText (count + 1)).toList ++ later.1, value :: later.2)
    | .named name =>
      match named.lookup (String.ofList name) with
      | none => .error (.unboundName (String.ofList name))
      | some value => do
        let later ← placeOr exit d named (count + 1) positional rest
        return ((d.placeholderText (count + 1)).toList ++ later.1, value :: later.2)
    | other => do
      let later ← placeOr exit d named count positional rest
      return (other.chars ++ later.1, later.2)

section

variable {d : Dialect} {named : List (String × Value)} {positional : List Value} {count : Nat}
  {ls : List Lexeme}

/-- The way out that is taken leaves the rest of the text as it is. -/
theorem placeOr_textOf : placeOr (fun ls => .ok (textOf ls, [])) d named count positional ls =
    placeValues d named count positional ls := by
  induction ls generalizing count positional with
  | nil => rfl
  | cons l rest ih =>
    cases l with
    | positional => cases positional <;> simp [placeOr, placeValues, ih]
    | named n => cases h : named.lookup (String.ofList n) <;> simp [placeOr, placeValues, h, ih]
    | _ => simp [placeOr, placeValues, ih]

/-- **Where there are as many values as markers, no way out is ever taken**: it may be any other. -/
theorem placeOr_congr (enough : countPositional ls = positional.length)
    (exit exit' : List Lexeme → Except Error (List Char × List Value)) :
    placeOr exit d named count positional ls = placeOr exit' d named count positional ls := by
  induction ls generalizing count positional with
  | nil => rfl
  | cons l rest ih =>
    cases l with
    | positional =>
      cases positional with
      | nil => simp at enough
      | cons value more =>
        have later : placeOr exit d named (count + 1) more rest =
            placeOr exit' d named (count + 1) more rest := ih (by simpa using enough)
        simp only [placeOr, later]
    | named n =>
      have later : placeOr exit d named (count + 1) positional rest =
          placeOr exit' d named (count + 1) positional rest := ih (by simpa using enough)
      simp only [placeOr, later]
    | _ =>
      have later : placeOr exit d named count positional rest =
          placeOr exit' d named count positional rest := ih (by simpa using enough)
      simp only [placeOr, later]

end

/-! ## Reading again -/

/-- Whether a token is a marker. -/
def Grammar.Token.isMarker : Token → Bool
  | .named _ | .positional => true
  | _ => false

/-- The tokens of a placeholder. -/
def placeholderTokens (d : Dialect) (position : Nat) : List Token :=
  match d.placeholder with
  | .question => [.positional]
  | .dollar => .other '$' :: (decimal position).map .other

/-- Tokens with placeholders in the place of markers, when `count` stand before them. -/
def boundTokens (d : Dialect) : Nat → List Token → List Token
  | _, [] => []
  | count, t :: rest =>
    if t.isMarker then placeholderTokens d (count + 1) ++ boundTokens d (count + 1) rest
    else t :: boundTokens d count rest

section

variable {d : Dialect}

theorem tokenChars_placeholderTokens (position : Nat) :
    tokenChars (placeholderTokens d position) = (d.placeholderText position).toList := by
  have single : ∀ cs : List Char, tokenChars (cs.map .other) = cs := by
    intro cs
    induction cs with
    | nil => rfl
    | cons c rest ih => simp [Token.chars, ih]
  unfold placeholderTokens Dialect.placeholderText
  cases d.placeholder <;> simp [Token.chars, single]

/-- Binding the lexemes of tokens binds the tokens. -/
theorem filled_tokenLexemes (count : Nat) (ts : List Token) :
    filled d count (tokenLexemes ts) = tokenChars (boundTokens d count ts) := by
  induction ts generalizing count with
  | nil => rfl
  | cons t rest ih =>
    cases t <;>
      simp [Token.lexemes, filled, Lexeme.isMarker, Lexeme.chars, boundTokens, Token.isMarker,
        Token.chars, tokenChars_placeholderTokens, ih]

/-- A placeholder starts with a question mark or a dollar sign. -/
theorem head?_placeholderTokens (position : Nat) :
    ∃ t rest c, placeholderTokens d position = t :: rest ∧ t.chars = [c] ∧ (c = '?' ∨ c = '$') := by
  unfold placeholderTokens
  cases d.placeholder with
  | question => exact ⟨.positional, [], '?', rfl, rfl, .inl rfl⟩
  | dollar => exact ⟨.other '$', _, '$', rfl, rfl, .inr rfl⟩

/-- The tokens of a placeholder end wherever they do. -/
theorem ends_placeholderTokens {position : Nat} {t : Token} (h : t ∈ placeholderTokens d position)
    (rest : List Char) : t.Formed ∧ t.Ends rest := by
  have character : ∀ c : Char, c ≠ '\x27' → c ≠ '?' → c ≠ ':' →
      (Token.other c).Formed ∧ (Token.other c).Ends rest := by
    intro c quote mark colon
    exact ⟨.other quote mark, fun same => absurd same colon⟩
  unfold placeholderTokens at h
  cases hd : d.placeholder with
  | question =>
    rw [hd] at h
    obtain rfl := List.mem_singleton.mp h
    exact ⟨.positional, trivial⟩
  | dollar =>
    rw [hd] at h
    rcases List.mem_cons.mp h with rfl | digit
    · exact character '$' (by decide) (by decide) (by decide)
    · obtain ⟨c, hc, rfl⟩ := List.mem_map.mp digit
      have isDigit : c.isDigit = true := Nat.isDigit_of_mem_toDigits (by decide) (by decide) hc
      refine character c ?_ ?_ ?_ <;> rintro rfl <;> cases isDigit

/-- What a colon by itself may have behind it stays so when the tokens behind it are bound. -/
theorem head?_boundTokens (count : Nat) {ts : List Token}
    (h : ∀ c ∈ (tokenChars ts).head?, c ≠ ':' ∧ isNameStart c = false) :
    ∀ c ∈ (tokenChars (boundTokens d count ts)).head?, c ≠ ':' ∧ isNameStart c = false := by
  cases ts with
  | nil => exact h
  | cons t rest =>
    by_cases marker : t.isMarker
    · obtain ⟨u, us, first, tokens, chars, kind⟩ := head?_placeholderTokens (d := d) (count + 1)
      have head : (tokenChars (boundTokens d count (t :: rest))).head? = some first := by
        simp [boundTokens, marker, tokens, chars]
      intro c hc
      rw [head] at hc
      obtain rfl := Option.some.inj hc
      rcases kind with rfl | rfl <;> decide
    · have same : (tokenChars (boundTokens d count (t :: rest))).head? = (tokenChars (t :: rest)).head? := by
        simp only [boundTokens, marker, Bool.false_eq_true, if_false, tokenChars_cons]
        rw [List.head?_append_of_ne_nil _ Token.chars_ne_nil,
          List.head?_append_of_ne_nil _ Token.chars_ne_nil]
      rw [same]
      exact h

/-- Tokens that end wherever they do are read in front of any text that is read. -/
theorem reads_append_of_ends {front back : List Token}
    (h : ∀ t ∈ front, ∀ rest, t.Formed ∧ t.Ends rest) (reads : Reads (tokenChars back) back []) :
    Reads (tokenChars (front ++ back)) (front ++ back) [] := by
  induction front with
  | nil => exact reads
  | cons t rest ih =>
    have later := ih fun u hu => h u (List.mem_cons_of_mem _ hu)
    obtain ⟨formed, ends⟩ := h t List.mem_cons_self (tokenChars (rest ++ back))
    exact .next (formed.leads ends) later

/-- **A text that is bound is read as the tokens before**, with placeholders in the place of markers.
A marker leaves with what it ends in front of, and the only other token that hangs on what stands
behind it is a colon by itself. -/
theorem reads_boundTokens {text : List Char} {ts : List Token} (h : Reads text ts [])
    (count : Nat) : Reads (tokenChars (boundTokens d count ts)) (boundTokens d count ts) [] := by
  induction ts generalizing text count with
  | nil => exact .stop []
  | cons t rest ih =>
    cases h with
    | @next _ more _ _ _ first later =>
      have behind : more = tokenChars rest := by simpa using later.text
      by_cases marker : t.isMarker
      · simp only [boundTokens, marker, if_true]
        exact reads_append_of_ends (fun u hu => ends_placeholderTokens hu) (ih later (count + 1))
      · simp only [boundTokens, marker, Bool.false_eq_true, if_false]
        refine .next (first.formed.leads ?_) (ih later count)
        have ends := first.ends
        rw [behind] at ends
        cases t with
        | named n => exact absurd rfl marker
        | other c =>
          intro colon
          exact head?_boundTokens count (ends colon)
        | _ => trivial

end

/-! ## Binding again -/

section

variable {d : Dialect} {named : List (String × Value)} {positional : List Value}

/-- Numbered placeholders are no markers. -/
theorem not_isMarker_of_dollar (dollar : d.placeholder = .dollar) {count : Nat} {ts : List Token} :
    ∀ t ∈ boundTokens d count ts, t.isMarker = false := by
  induction ts generalizing count with
  | nil => simp [boundTokens]
  | cons t rest ih =>
    intro u hu
    by_cases marker : t.isMarker
    · simp only [boundTokens, marker, if_true, List.mem_append] at hu
      rcases hu with own | later
      · simp only [placeholderTokens, dollar, List.mem_cons, List.mem_map] at own
        rcases own with rfl | ⟨c, -, rfl⟩ <;> rfl
      · exact ih u later
    · simp only [boundTokens, marker, Bool.false_eq_true, if_false, List.mem_cons] at hu
      rcases hu with rfl | later
      · simpa using marker
      · exact ih u later

/-- Tokens that are no markers have none. -/
theorem markersOf_eq_nil {ts : List Token} (h : ∀ t ∈ ts, t.isMarker = false) : markersOf ts = [] := by
  rw [markersOf, List.filterMap_eq_nil_iff]
  intro p hp
  obtain ⟨before, after, rfl, -, -⟩ := mem_placed hp
  have none := h p.1 (by simp)
  obtain ⟨t, span⟩ := p
  cases t with
  | named n => cases none
  | positional => cases none
  | _ => rfl

/-- **A text that is bound with numbered placeholders has no markers left.** -/
theorem scan_of_dollar (dollar : d.placeholder = .dollar) {ts : List Token} {text : List Char}
    (h : Reads text ts []) {count : Nat} {out : String}
    (made : out.toList = tokenChars (boundTokens d count ts)) :
    ∃ s, scan out = .ok s ∧ s.markers = [] := by
  have reads := reads_boundTokens (d := d) h count
  rw [← made] at reads
  exact ⟨_, scan_of_reads reads, markersOf_eq_nil (not_isMarker_of_dollar dollar)⟩

/-- Question marks for markers are as many positional markers, and no name is left. -/
theorem tokenLexemes_of_question (question : d.placeholder = .question) (count : Nat) (ts : List Token) :
    countPositional (tokenLexemes (boundTokens d count ts)) =
        (tokenLexemes ts).countP (·.isMarker) ∧
      ∀ n, .named n ∉ tokenLexemes (boundTokens d count ts) := by
  induction ts generalizing count with
  | nil => simp [boundTokens]
  | cons t rest ih =>
    by_cases marker : t.isMarker
    · obtain ⟨counted, none⟩ := ih (count + 1)
      have one : t.lexemes.countP (·.isMarker) = 1 := by
        cases t with
        | named n => rfl
        | positional => rfl
        | _ => cases marker
      have mark : Token.positional.lexemes = [.positional] := rfl
      simp [boundTokens, marker, placeholderTokens, question, mark, counted, none, one,
        Nat.add_comm]
    · obtain ⟨counted, none⟩ := ih count
      have zero : t.lexemes.countP (·.isMarker) = 0 ∧ countPositional t.lexemes = 0 ∧
          ∀ n, .named n ∉ t.lexemes := by
        cases t with
        | named n => exact absurd rfl marker
        | positional => exact absurd rfl marker
        | _ => simp [Token.lexemes, Lexeme.isMarker]
      simp [boundTokens, marker, counted, none, zero]

/-- Bound with question marks, a text without names stays as it is. -/
theorem filled_of_question (question : d.placeholder = .question) {ls : List Lexeme}
    (none : ∀ n, .named n ∉ ls) (count : Nat) : filled d count ls = textOf ls := by
  induction ls generalizing count with
  | nil => rfl
  | cons l rest ih =>
    have later := ih fun n hn => none n (List.mem_cons_of_mem _ hn)
    cases l with
    | positional =>
      have mark : d.placeholderText (count + 1) = "?" := by simp [Dialect.placeholderText, question]
      simp only [filled, Lexeme.isMarker, if_true, mark, later]
      rfl
    | named n => exact absurd List.mem_cons_self (none n)
    | _ =>
      simp only [filled, Lexeme.isMarker, Bool.false_eq_true, if_false, later]
      rfl

/-- Without names the values are the positional ones. -/
theorem markerValues_of_unnamed {ls : List Lexeme} (none : ∀ n, .named n ∉ ls)
    (enough : countPositional ls = positional.length) :
    markerValues named positional ls = positional := by
  induction ls generalizing positional with
  | nil => exact (List.eq_nil_of_length_eq_zero enough.symm).symm
  | cons l rest ih =>
    have without : ∀ n, .named n ∉ rest := fun n hn => none n (List.mem_cons_of_mem _ hn)
    cases l with
    | positional =>
      cases positional with
      | nil => simp at enough
      | cons value more =>
        have later : markerValues named more rest = more := ih without (by simpa using enough)
        simp [markerValues, later]
    | named n => exact absurd List.mem_cons_self (none n)
    | _ => exact ih without (by simpa using enough)

/-- **Binding again changes nothing** where placeholders are question marks. -/
theorem bindParameters_again (question : d.placeholder = .question) {ts : List Token}
    {text : List Char} (h : Reads text ts []) {params : List Value}
    (enough : (tokenLexemes ts).countP (·.isMarker) = params.length) {out : String}
    (made : out.toList = tokenChars (boundTokens d 0 ts)) :
    bindParameters d [] params out = .ok ⟨out, params⟩ := by
  have reads := reads_boundTokens (d := d) h 0
  rw [← made] at reads
  obtain ⟨ls, read, same⟩ := lexemes_of_reads reads
  obtain ⟨counted, none⟩ := tokenLexemes_of_question question 0 ts
  -- References are not seen by binding, so that what is known of the tokens holds of the text.
  rw [← same] at counted none
  have count : countPositional ls = params.length := by
    rw [← enough, ← counted]
    exact countPositional_spelled.symm
  have unnamed : ∀ n, .named n ∉ ls := fun n hn => none n (mem_spelled_named.mpr hn)
  rw [bindParameters_eq_ok_iff]
  refine ⟨ls, read, ⟨count, fun n hn => absurd hn (unnamed n)⟩, ?_⟩
  rw [filled_of_question question unnamed, textOf_lexemes read, String.ofList_toList,
    markerValues_of_unnamed unnamed count]

end

/-! ## The theorem -/

/-- A statement is a text with the placeholders of a dialect in the place of its markers, and with
their values. -/
structure Statement.Places (st : Statement) (d : Dialect) (named : List (String × Value))
    (positional : List Value) (text : String) (s : Scan) : Prop where
  /-- The text is cut at the bytes of the markers, and the placeholders count them. -/
  spliced : Spliced (fun i => (d.placeholderText i).toList) 0 0 (s.markers.map (·.span)) text.toList
    st.sql.toList
  count : st.params.length = s.markers.length
  /-- A positional marker has the value behind those of the positional markers before it, a named one
  the value under its name. -/
  value : ∀ (i : Nat) (m : Marker), s.markers[i]? = some m → st.params[i]? =
    m.value? named (positional.drop ((s.markers.take i).countP Marker.isPositional))
  /-- Values are never left out for want of one: the result is the same whatever the way out gives. -/
  whole : ∀ ls, lexemes text.toList = .ok ls → ∀ exit,
    placeValues d named 0 positional ls = placeOr exit d named 0 positional ls

section

variable {d : Dialect} {named : List (String × Value)} {positional : List Value} {text : String}

/-- The markers of a scan are those of the lexemes. -/
theorem scan_eq_ok_iff {s : Scan} : scan text = .ok s ↔ ∃ ls,
    lexemes text.toList = .ok ls ∧ s = ⟨markersFrom 0 ls, mergeTouching (literalsFrom 0 ls)⟩ := by
  constructor
  · intro h
    obtain ⟨ls, read, result⟩ := ok_bind.mp h
    exact ⟨ls, read, (Except.ok.inj result).symm⟩
  · rintro ⟨ls, read, rfl⟩
    exact ok_bind.mpr ⟨ls, read, rfl⟩

/-- Every marker has a value exactly if the markers that are scanned have. -/
theorem exists_binds_iff : (∃ ls, lexemes text.toList = .ok ls ∧ Binds named positional ls) ↔
    ∃ s, scan text = .ok s ∧ s.positionalCount = positional.length ∧
      ∀ name span, .named name span ∈ s.markers → (named.lookup name).isSome := by
  constructor
  · rintro ⟨ls, read, binds⟩
    obtain ⟨count, names⟩ := (binds_iff_markers 0).mp binds
    exact ⟨_, scan_eq_ok_iff.mpr ⟨ls, read, rfl⟩, (Scan.positionalCount_eq _).trans count, names⟩
  · rintro ⟨s, found, count, names⟩
    obtain ⟨ls, read, rfl⟩ := scan_eq_ok_iff.mp found
    rw [Scan.positionalCount_eq] at count
    exact ⟨ls, read, (binds_iff_markers 0).mpr ⟨count, names⟩⟩

/-- What binding gives has placeholders in the places of the markers. -/
theorem places_of_binds {ls : List Lexeme} (read : lexemes text.toList = .ok ls)
    (binds : Binds named positional ls) :
    (⟨String.ofList (filled d 0 ls), markerValues named positional ls⟩ : Statement).Places d named
      positional text ⟨markersFrom 0 ls, mergeTouching (literalsFrom 0 ls)⟩ where
  spliced := by
    rw [String.toList_ofList, ← textOf_lexemes read]
    exact spliced_filled d 0 0 ls
  count := by rw [length_markerValues binds, length_markersFrom]
  value := by
    intro i m found
    rw [getElem?_markerValues_of_markers binds 0 i, found]
    rfl
  whole := by
    intro own same exit
    obtain rfl := Except.ok.inj (read.symm.trans same)
    rw [← placeOr_textOf]
    exact placeOr_congr binds.count _ exit

/-- What binding gives, in terms of the tokens of the text. -/
theorem bound_of_tokens {ls : List Lexeme} (read : lexemes text.toList = .ok ls)
    (binds : Binds named positional ls) :
    ∃ ts, Reads text.toList ts [] ∧ filled d 0 ls = tokenChars (boundTokens d 0 ts) ∧
      (tokenLexemes ts).countP (·.isMarker) = (markerValues named positional ls).length := by
  obtain ⟨ts, rest, reads, closed | unclosed⟩ := exists_reads text.toList
  · subst closed
    obtain ⟨own, found, same⟩ := lexemes_of_reads reads
    obtain rfl := Except.ok.inj (read.symm.trans found)
    refine ⟨ts, reads, ?_, ?_⟩
    · rw [← filled_tokenLexemes, ← same, filled_bare]
    · have spelled : Binds named positional (bare ls) := binds_spelled_iff.mpr binds
      have values : markerValues named positional (bare ls) = markerValues named positional ls :=
        markerValues_spelled
      rw [← same, ← length_markerValues spelled, values]
  · rw [lexemes_of_unclosed reads unclosed] at read
    cases read

end

/-- **Binding puts placeholders for markers and nothing else.** It succeeds exactly if the text can be
scanned, there are as many positional markers as positional values, and every name has a value. Then
each marker is replaced by the placeholder that counts it and has its value. A text with question
marks for placeholders is bound to itself with the values that it has, and one with numbered
placeholders has no markers left. -/
theorem bindParameters_places (d : Dialect) (named : List (String × Value)) (positional : List Value)
    (text : String) :
    ((∃ st, bindParameters d named positional text = .ok st) ↔
      ∃ s, scan text = .ok s ∧ s.positionalCount = positional.length ∧
        ∀ name span, .named name span ∈ s.markers → (named.lookup name).isSome) ∧
      ∀ st, bindParameters d named positional text = .ok st →
        (∃ s, scan text = .ok s ∧ st.Places d named positional text s) ∧
          (d.placeholder = .question → bindParameters d [] st.params st.sql = .ok st) ∧
          (d.placeholder = .dollar → ∃ s, scan st.sql = .ok s ∧ s.markers = []) := by
  refine ⟨?_, ?_⟩
  · rw [← exists_binds_iff]
    constructor
    · rintro ⟨st, bound⟩
      obtain ⟨ls, read, binds, -⟩ := bindParameters_eq_ok_iff.mp bound
      exact ⟨ls, read, binds⟩
    · rintro ⟨ls, read, binds⟩
      exact ⟨_, bindParameters_eq_ok_iff.mpr ⟨ls, read, binds, rfl⟩⟩
  · intro st bound
    obtain ⟨ls, read, binds, rfl⟩ := bindParameters_eq_ok_iff.mp bound
    obtain ⟨ts, reads, filled, counted⟩ := bound_of_tokens (d := d) read binds
    refine ⟨⟨_, scan_eq_ok_iff.mpr ⟨ls, read, rfl⟩, places_of_binds read binds⟩, ?_, ?_⟩
    · intro question
      apply bindParameters_again question reads counted
      rw [String.toList_ofList, filled]
    · intro dollar
      apply scan_of_dollar dollar reads
      rw [String.toList_ofList, filled]

end Orm.Sql
