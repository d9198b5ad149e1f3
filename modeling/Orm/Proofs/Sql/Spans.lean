import Orm.Proofs.Sql.Tokens
import Orm.Sql.Scan

/-!
# `Proofs.Sql.Spans` — where the tokens of a text stand

A scan tells the bytes of markers and literals. These are the bytes that the tokens of the text take up
when they stand one behind the other: the reader has references besides, but a reference is text to a
scan. So the markers of a scan are the marker tokens with their bytes, its literals are the literal
tokens, those that touch as one, and how they lie in the text is known from how tokens do.

## Contents
- **Places.** `placed`, `markersOf`, `literalsOf`, `markersFrom_bare`, `scan_of_reads`.
- **Spans.** `mem_placed`, `pairwise_placed`, `pairwise_mergeTouching`, `Cuts`, `Lies`,
  `lies_of_reads`.
- **The theorem.** `scan_tokens`.
-/

namespace Orm.Sql.Grammar

open Text

/-! ## Places -/

/-- Tokens with the bytes that they take up when the first of them starts at `offset`. -/
def placed (offset : Nat) : List Token → List (Token × Span)
  | [] => []
  | t :: rest =>
    let stop := offset + byteSize t.chars
    (t, ⟨offset, stop⟩) :: placed stop rest

/-- The marker that a token is at its place. -/
def marker? : Token × Span → Option Marker
  | (.positional, span) => some (.positional span.start)
  | (.named name, span) => some (.named (String.ofList name) span)
  | _ => none

/-- The place of a literal. -/
def literal? : Token × Span → Option Span
  | (.literal _, span) => some span
  | _ => none

/-- The markers among tokens, in their order. -/
def markersOf (ts : List Token) : List Marker :=
  (placed 0 ts).filterMap marker?

/-- The places of the literals among tokens, in their order. -/
def literalsOf (ts : List Token) : List Span :=
  (placed 0 ts).filterMap literal?

section

variable {offset : Nat} {ls : List Lexeme} {ts : List Token}

theorem markersFrom_chars (cs : List Char) (ls : List Lexeme) :
    markersFrom offset (cs.map .char ++ ls) = markersFrom (offset + byteSize cs) ls := by
  induction cs generalizing offset with
  | nil => rfl
  | cons c rest ih => simp [markersFrom, Lexeme.chars, byteSize, ih, Nat.add_assoc]

theorem literalsFrom_chars (cs : List Char) (ls : List Lexeme) :
    literalsFrom offset (cs.map .char ++ ls) = literalsFrom (offset + byteSize cs) ls := by
  induction cs generalizing offset with
  | nil => rfl
  | cons c rest ih => simp [literalsFrom, Lexeme.chars, byteSize, ih, Nat.add_assoc]

/-- References are no markers. -/
theorem markersFrom_bare : markersFrom offset (bare ls) = markersFrom offset ls := by
  induction ls generalizing offset with
  | nil => rfl
  | cons l rest ih =>
    cases l with
    | reference n =>
      rw [bare_reference, markersFrom_chars, ih]
      rfl
    | _ =>
      show markersFrom offset (_ :: bare rest) = _
      simp only [markersFrom, ih]

/-- References are no literals. -/
theorem literalsFrom_bare : literalsFrom offset (bare ls) = literalsFrom offset ls := by
  induction ls generalizing offset with
  | nil => rfl
  | cons l rest ih =>
    cases l with
    | reference n =>
      rw [bare_reference, literalsFrom_chars, ih]
      rfl
    | _ =>
      show literalsFrom offset (_ :: bare rest) = _
      simp only [literalsFrom, ih]

theorem markersFrom_tokenLexemes :
    markersFrom offset (tokenLexemes ts) = (placed offset ts).filterMap marker? := by
  induction ts generalizing offset with
  | nil => rfl
  | cons t rest ih =>
    cases t with
    | cast =>
      -- Two characters of one byte each to the reader.
      show markersFrom (offset + 1 + 1) (tokenLexemes rest) = _
      rw [ih]
      rfl
    | _ =>
      simp only [tokenLexemes_cons, Token.lexemes, List.singleton_append, markersFrom, ih]
      rfl

theorem literalsFrom_tokenLexemes :
    literalsFrom offset (tokenLexemes ts) = (placed offset ts).filterMap literal? := by
  induction ts generalizing offset with
  | nil => rfl
  | cons t rest ih =>
    cases t with
    | cast =>
      -- Two characters of one byte each to the reader.
      show literalsFrom (offset + 1 + 1) (tokenLexemes rest) = _
      rw [ih]
      rfl
    | _ =>
      simp only [tokenLexemes_cons, Token.lexemes, List.singleton_append, literalsFrom, ih]
      rfl

end

/-- A text that is read to its end is scanned, and the scan finds its tokens. -/
theorem scan_of_reads {text : String} {ts : List Token} (h : Reads text.toList ts []) :
    scan text = .ok ⟨markersOf ts, mergeTouching (literalsOf ts)⟩ := by
  obtain ⟨ls, read, same⟩ := lexemes_of_reads h
  have markers : markersFrom 0 ls = markersOf ts := by
    rw [← markersFrom_bare, same, markersFrom_tokenLexemes, markersOf]
  have literals : literalsFrom 0 ls = literalsOf ts := by
    rw [← literalsFrom_bare, same, literalsFrom_tokenLexemes, literalsOf]
  unfold scan
  rw [read, ← markers, ← literals]
  rfl

/-- A text with an open literal is refused by the scan. -/
theorem scan_of_unclosed {text : String} {ts : List Token} {rest : List Char}
    (h : Reads text.toList ts rest) (open_ : Unclosed rest) :
    scan text = .error (.openLiteral (byteSize (tokenChars ts))) := by
  unfold scan
  rw [lexemes_of_unclosed h open_]
  rfl

/-! ## Spans -/

section

variable {offset : Nat} {ts : List Token}

theorem byteSize_pos {text : List Char} (h : text ≠ []) : 0 < byteSize text := by
  cases text with
  | nil => exact absurd rfl h
  | cons c rest =>
    have some : 0 < c.utf8Size := c.utf8Size_pos
    simp only [byteSize]
    omega

/-- A token stands between those before it and those behind it. -/
theorem mem_placed {p : Token × Span} (h : p ∈ placed offset ts) :
    ∃ before after, ts = before ++ p.1 :: after ∧
      p.2.start = offset + byteSize (tokenChars before) ∧
        p.2.stop = p.2.start + byteSize p.1.chars := by
  induction ts generalizing offset with
  | nil => cases h
  | cons u rest ih =>
    rcases List.mem_cons.mp h with first | later
    · cases first
      exact ⟨[], rest, rfl, by simp [byteSize], rfl⟩
    · obtain ⟨before, after, rfl, start, stop⟩ := ih later
      refine ⟨u :: before, after, rfl, ?_, stop⟩
      rw [start, tokenChars_cons, byteSize_append, Nat.add_assoc]

/-- No token starts before the first one. -/
theorem le_start_of_mem {p : Token × Span} (h : p ∈ placed offset ts) : offset ≤ p.2.start := by
  obtain ⟨before, after, -, start, -⟩ := mem_placed h
  omega

/-- A token takes up bytes. -/
theorem start_lt_stop_of_mem {p : Token × Span} (h : p ∈ placed offset ts) : p.2.start < p.2.stop := by
  obtain ⟨before, after, -, -, stop⟩ := mem_placed h
  have some : 0 < byteSize p.1.chars := byteSize_pos Token.chars_ne_nil
  omega

/-- A token starts where the ones before it have stopped. -/
theorem pairwise_placed : (placed offset ts).Pairwise fun a b => a.2.stop ≤ b.2.start := by
  induction ts generalizing offset with
  | nil => exact .nil
  | cons t rest ih =>
    apply List.Pairwise.cons
    · intro p hp
      exact le_start_of_mem hp
    · exact ih

end

/-- A merged span starts and stops where spans do. -/
theorem ends_of_mem_mergeTouching {spans : List Span} {s : Span} (h : s ∈ mergeTouching spans) :
    (∃ a ∈ spans, a.start = s.start) ∧ ∃ b ∈ spans, b.stop = s.stop := by
  induction spans generalizing s with
  | nil => cases h
  | cons a rest ih =>
    rw [mergeTouching] at h
    split at h
    · obtain rfl := List.mem_singleton.mp h
      exact ⟨⟨s, List.mem_cons_self, rfl⟩, ⟨s, List.mem_cons_self, rfl⟩⟩
    · next t later merged =>
      have old : ∀ u ∈ t :: later, (∃ a ∈ rest, a.start = u.start) ∧ ∃ b ∈ rest, b.stop = u.stop := by
        intro u hu
        exact ih (merged ▸ hu)
      have wider : ∀ u ∈ t :: later,
          (∃ b ∈ a :: rest, b.start = u.start) ∧ ∃ b ∈ a :: rest, b.stop = u.stop := by
        intro u hu
        obtain ⟨⟨b, hb, start⟩, ⟨b', hb', stop⟩⟩ := old u hu
        exact ⟨⟨b, List.mem_cons_of_mem _ hb, start⟩, ⟨b', List.mem_cons_of_mem _ hb', stop⟩⟩
      split at h
      · rcases List.mem_cons.mp h with rfl | beyond
        · exact ⟨⟨a, List.mem_cons_self, rfl⟩, (wider t List.mem_cons_self).2⟩
        · exact wider s (List.mem_cons_of_mem _ beyond)
      · rcases List.mem_cons.mp h with rfl | beyond
        · exact ⟨⟨s, List.mem_cons_self, rfl⟩, ⟨s, List.mem_cons_self, rfl⟩⟩
        · exact wider s beyond

/-- Merged spans do not touch. -/
theorem pairwise_mergeTouching {spans : List Span} (some : ∀ s ∈ spans, s.start < s.stop)
    (ordered : spans.Pairwise fun a b => a.stop ≤ b.start) :
    (mergeTouching spans).Pairwise (fun a b => a.stop < b.start) ∧
      ∀ s ∈ mergeTouching spans, s.start < s.stop := by
  induction spans with
  | nil => exact ⟨.nil, nofun⟩
  | cons a rest ih =>
    obtain ⟨behind, ordered⟩ := List.pairwise_cons.mp ordered
    obtain ⟨apart, wide⟩ := ih (fun s hs => some s (List.mem_cons_of_mem _ hs)) ordered
    have own : a.start < a.stop := some a List.mem_cons_self
    -- No merged span starts before the first span has stopped.
    have follows : ∀ u ∈ mergeTouching rest, a.stop ≤ u.start := by
      intro u hu
      obtain ⟨⟨b, hb, start⟩, -⟩ := ends_of_mem_mergeTouching hu
      rw [← start]
      exact behind b hb
    rw [mergeTouching]
    split
    · exact ⟨List.pairwise_singleton _ _, by simpa using own⟩
    · next t later merged =>
      rw [merged] at apart wide follows
      obtain ⟨next, apart⟩ := List.pairwise_cons.mp apart
      have first : a.stop ≤ t.start := follows t List.mem_cons_self
      have width : t.start < t.stop := wide t List.mem_cons_self
      split
      · next touch =>
        refine ⟨List.pairwise_cons.mpr ⟨next, apart⟩, ?_⟩
        intro u hu
        rcases List.mem_cons.mp hu with rfl | beyond
        · show a.start < t.stop
          omega
        · exact wide u (List.mem_cons_of_mem _ beyond)
      · next gap =>
        have before : ∀ u ∈ t :: later, a.stop < u.start := by
          intro u hu
          rcases List.mem_cons.mp hu with rfl | beyond
          · omega
          · have := next u beyond
            omega
        exact ⟨List.pairwise_cons.mpr ⟨before, List.pairwise_cons.mpr ⟨next, apart⟩⟩,
          List.forall_mem_cons.mpr ⟨own, wide⟩⟩

/-- The size of a text is the number of bytes that the string has. -/
theorem utf8ByteSize_ofList_eq (text : List Char) :
    (String.ofList text).utf8ByteSize = byteSize text := by
  induction text with
  | nil => rfl
  | cons c rest ih =>
    have parts : String.ofList (c :: rest) = String.singleton c ++ String.ofList rest := by
      rw [String.singleton_eq_ofList, ← String.ofList_append]
      rfl
    rw [parts, String.utf8ByteSize_append, ih, String.utf8ByteSize_singleton]
    rfl

/-- Where one part of a text ends and the next one starts, a character starts or the text ends. -/
theorem isValid_of_append {text : String} {a b : List Char} (h : text.toList = a ++ b) :
    (⟨byteSize a⟩ : String.Pos.Raw).IsValid text := by
  rw [String.Pos.Raw.isValid_iff_exists_append]
  refine ⟨String.ofList a, String.ofList b, ?_, ?_⟩
  · rw [← String.ofList_append, ← h, String.ofList_toList]
  · simp [String.rawEndPos, ← utf8ByteSize_ofList_eq]

/-- A span takes up whole characters of a text, at least one. -/
structure Cuts (span : Span) (text : String) : Prop where
  some : span.start < span.stop
  start : (⟨span.start⟩ : String.Pos.Raw).IsValid text
  stop : (⟨span.stop⟩ : String.Pos.Raw).IsValid text

/-- How the markers and literals that a scan finds lie in the text: each takes up whole characters,
the markers follow each other, the literals follow each other and do not touch, and no marker shares
a byte with a literal. -/
structure Lies (s : Scan) (text : String) : Prop where
  cuts : ∀ span ∈ s.markers.map (·.span) ++ s.literals, Cuts span text
  markers : (s.markers.map (·.span)).Pairwise fun a b => a.stop ≤ b.start
  literals : s.literals.Pairwise fun a b => a.stop < b.start
  apart : ∀ m ∈ s.markers, ∀ l ∈ s.literals, m.span.stop ≤ l.start ∨ l.stop ≤ m.span.start

section

variable {text : String} {ts : List Token}

/-- Tokens take up whole characters. -/
theorem cuts_of_mem_placed (whole : text.toList = tokenChars ts) {p : Token × Span}
    (h : p ∈ placed 0 ts) : Cuts p.2 text := by
  obtain ⟨before, after, rfl, start, stop⟩ := mem_placed h
  rw [Nat.zero_add] at start
  have first : text.toList = tokenChars before ++ (p.1.chars ++ tokenChars after) := by simp [whole]
  have second : text.toList = (tokenChars before ++ p.1.chars) ++ tokenChars after := by simp [whole]
  refine ⟨start_lt_stop_of_mem h, ?_, ?_⟩
  · rw [start]
    exact isValid_of_append first
  · rw [stop, start, ← byteSize_append]
    exact isValid_of_append second

/-- A marker stands where its token does. -/
theorem span_of_marker? {p : Token × Span} {m : Marker} (hp : p ∈ placed 0 ts)
    (h : marker? p = some m) : p.2 = m.span := by
  obtain ⟨t, span⟩ := p
  cases t with
  | named name =>
    cases h
    rfl
  | positional =>
    -- A question mark is one byte.
    obtain ⟨before, after, -, -, stop⟩ := mem_placed hp
    have one : span.stop = span.start + 1 := stop
    cases h
    show span = ⟨span.start, span.start + 1⟩
    rw [← one]
  | _ => cases h

theorem exists_of_mem_markersOf {m : Marker} (h : m ∈ markersOf ts) :
    ∃ p ∈ placed 0 ts, marker? p = some m ∧ p.2 = m.span := by
  obtain ⟨p, hp, found⟩ := List.mem_filterMap.mp h
  exact ⟨p, hp, found, span_of_marker? hp found⟩

theorem exists_of_mem_literalsOf {span : Span} (h : span ∈ literalsOf ts) :
    ∃ body, (Token.literal body, span) ∈ placed 0 ts := by
  obtain ⟨⟨t, own⟩, hp, found⟩ := List.mem_filterMap.mp h
  cases t with
  | literal body =>
    cases found
    exact ⟨body, hp⟩
  | _ => cases found

/-- Tokens in two places have no byte in common. -/
theorem not_contains_of_placed {p q : Token × Span} (hp : p ∈ placed 0 ts) (hq : q ∈ placed 0 ts)
    (other : p ≠ q) {o : Nat} (ho : p.2.contains o) : ¬ q.2.contains o := by
  simp only [Span.contains, Bool.and_eq_true, decide_eq_true_eq] at ho ⊢
  obtain ⟨i, hi, rfl⟩ := List.getElem_of_mem hp
  obtain ⟨j, hj, rfl⟩ := List.getElem_of_mem hq
  have ordered : (placed 0 ts).Pairwise fun a b => a.2.stop ≤ b.2.start := pairwise_placed
  rw [List.pairwise_iff_getElem] at ordered
  rcases Nat.lt_trichotomy i j with less | rfl | more
  · have := ordered i j hi hj less
    omega
  · exact absurd rfl other
  · have := ordered j i hj hi more
    omega

/-- The bytes in literals are those of the tokens that are literals. -/
theorem any_contains_literals (o : Nat) :
    (mergeTouching (literalsOf ts)).any (·.contains o) = (literalsOf ts).any (·.contains o) := by
  refine (any_contains_mergeTouching ?_ o).1
  intro span hspan
  obtain ⟨body, hp⟩ := exists_of_mem_literalsOf hspan
  exact Nat.le_of_lt (start_lt_stop_of_mem hp)

/-- No marker shares a byte with a literal: the later of the two starts would be a byte of both. -/
theorem markers_apart_literals {m : Marker} (hm : m ∈ markersOf ts) {l : Span}
    (hl : l ∈ mergeTouching (literalsOf ts)) (wide : l.start < l.stop) :
    m.span.stop ≤ l.start ∨ l.stop ≤ m.span.start := by
  obtain ⟨p, hp, found, same⟩ := exists_of_mem_markersOf hm
  by_contra meet
  push Not at meet
  have wideMarker := start_lt_stop_of_mem hp
  have inLiteral : (mergeTouching (literalsOf ts)).any (·.contains (max m.span.start l.start)) := by
    refine List.any_eq_true.mpr ⟨l, hl, ?_⟩
    simp only [Span.contains, Bool.and_eq_true, decide_eq_true_eq]
    omega
  rw [any_contains_literals] at inLiteral
  obtain ⟨span, hspan, own⟩ := List.any_eq_true.mp inLiteral
  obtain ⟨body, hq⟩ := exists_of_mem_literalsOf hspan
  refine not_contains_of_placed hq hp ?_ own ?_
  · rintro rfl
    cases found
  · rw [same] at wideMarker ⊢
    simp only [Span.contains, Bool.and_eq_true, decide_eq_true_eq]
    omega

/-- **How tokens lie in a text.** -/
theorem lies_of_reads (h : Reads text.toList ts []) :
    Lies ⟨markersOf ts, mergeTouching (literalsOf ts)⟩ text := by
  have whole : text.toList = tokenChars ts := by simpa using h.text
  have places : ∀ span ∈ literalsOf ts, ∃ p ∈ placed 0 ts, p.2 = span := by
    intro span hspan
    obtain ⟨body, hp⟩ := exists_of_mem_literalsOf hspan
    exact ⟨_, hp, rfl⟩
  have ordered : (literalsOf ts).Pairwise fun a b => a.stop ≤ b.start := by
    refine pairwise_placed.filterMap literal? ?_
    rintro ⟨t, span⟩ ⟨t', span'⟩ before b hb b' hb'
    cases t <;> cases hb
    cases t' <;> cases hb'
    exact before
  obtain ⟨separate, wide⟩ := pairwise_mergeTouching (fun span hspan => by
    obtain ⟨p, hp, rfl⟩ := places span hspan
    exact start_lt_stop_of_mem hp) ordered
  refine ⟨?_, ?_, separate, ?_⟩
  · intro span hspan
    rcases List.mem_append.mp hspan with marker | literal
    · obtain ⟨m, hm, rfl⟩ := List.mem_map.mp marker
      obtain ⟨p, hp, -, same⟩ := exists_of_mem_markersOf hm
      rw [← same]
      exact cuts_of_mem_placed whole hp
    · obtain ⟨⟨a, ha, start⟩, ⟨b, hb, stop⟩⟩ := ends_of_mem_mergeTouching literal
      obtain ⟨p, hp, rfl⟩ := places a ha
      obtain ⟨q, hq, rfl⟩ := places b hb
      refine ⟨wide span literal, ?_, ?_⟩
      · rw [← start]
        exact (cuts_of_mem_placed whole hp).start
      · rw [← stop]
        exact (cuts_of_mem_placed whole hq).stop
  · rw [List.pairwise_map]
    refine (List.Pairwise.and_mem.mp pairwise_placed).filterMap marker? ?_
    rintro p p' ⟨hp, hp', before⟩ m found m' found'
    rw [← span_of_marker? hp found, ← span_of_marker? hp' found']
    exact before
  · exact fun m hm l hl => markers_apart_literals hm hl (wide l hl)

end

/-- **A scan finds the longest tokens.** A text that is read as tokens to its end is scanned; what is
found are its markers with their bytes, and its literals, those that touch as one. A text is refused
exactly if it is read up to a literal that is not closed, at the byte where that starts. Markers and
literals take up whole characters, stand in order and apart from each other, and a byte is in a
literal exactly if it is one of a token that is a literal. -/
theorem scan_tokens (text : String) :
    (∀ s, scan text = .ok s ↔ ∃ ts, Reads text.toList ts [] ∧ s.markers = markersOf ts ∧
        s.literals = mergeTouching (literalsOf ts)) ∧
      (∀ e, scan text = .error e ↔ ∃ ts rest, Reads text.toList ts rest ∧ Unclosed rest ∧
        e = .openLiteral (byteSize (tokenChars ts))) ∧
      ∀ ts s, Reads text.toList ts [] → scan text = .ok s → Lies s text ∧
        ∀ o, s.inLiteral o ↔ ∃ body span, (Token.literal body, span) ∈ placed 0 ts ∧ span.contains o := by
  refine ⟨?_, ?_, ?_⟩
  · intro s
    constructor
    · intro found
      obtain ⟨ts, rest, reads, rfl | open_⟩ := exists_reads text.toList
      · cases found.symm.trans (scan_of_reads reads)
        exact ⟨ts, reads, rfl, rfl⟩
      · cases found.symm.trans (scan_of_unclosed reads open_)
    · rintro ⟨ts, reads, markers, literals⟩
      obtain ⟨own, spans⟩ := s
      obtain rfl : own = markersOf ts := markers
      obtain rfl : spans = mergeTouching (literalsOf ts) := literals
      exact scan_of_reads reads
  · intro e
    constructor
    · intro failed
      obtain ⟨ts, rest, reads, rfl | open_⟩ := exists_reads text.toList
      · cases failed.symm.trans (scan_of_reads reads)
      · cases failed.symm.trans (scan_of_unclosed reads open_)
        exact ⟨ts, rest, reads, open_, rfl⟩
    · rintro ⟨ts, rest, reads, open_, rfl⟩
      exact scan_of_unclosed reads open_
  · intro ts s reads found
    cases found.symm.trans (scan_of_reads reads)
    refine ⟨lies_of_reads reads, ?_⟩
    intro o
    show (mergeTouching (literalsOf ts)).any (·.contains o) ↔ _
    rw [any_contains_literals, List.any_eq_true]
    constructor
    · rintro ⟨span, hspan, inside⟩
      obtain ⟨body, hp⟩ := exists_of_mem_literalsOf hspan
      exact ⟨body, span, hp, inside⟩
    · rintro ⟨body, span, hp, inside⟩
      exact ⟨span, List.mem_filterMap.mpr ⟨_, hp, rfl⟩, inside⟩

/-- Halves of a literal with a doubled quote in it count as one literal, and a cast is no marker. -/
example : (scan "'O''B' = :a? + x::int").toOption =
    some ⟨[.named "a" ⟨9, 11⟩, .positional 11], [⟨0, 6⟩]⟩ := by
  decide

end Orm.Sql.Grammar
