import Orm.Sql.Lexeme

/-!
# `Orm.Sql.Scan` — where markers and literals stand

The byte positions of parameter markers and literals in a statement text. Literals that touch, such
as the halves of a literal with a doubled quote in it, count as one.

## Contents
- **Spans.** `Span`, `Span.contains`, `mergeTouching`.
- **Scans.** `Marker`, `Scan`, `scan`, `Scan.inLiteral`, `Scan.positionalCount`.
-/

namespace Orm.Sql

open Text

/-! ## Spans -/

/-- The bytes from `start` up to, but not including, `stop`. -/
structure Span where
  start : Nat
  stop : Nat
  deriving DecidableEq, Repr

/-- Whether a byte lies in a span. -/
def Span.contains (s : Span) (offset : Nat) : Bool :=
  s.start ≤ offset && offset < s.stop

/-- Spans in order, with one that starts where the one before it stops joined to that one. -/
def mergeTouching : List Span → List Span
  | [] => []
  | s :: rest =>
    match mergeTouching rest with
    | [] => [s]
    | t :: later => if s.stop = t.start then ⟨s.start, t.stop⟩ :: later else s :: t :: later

/-- Merging keeps the bytes that are covered. -/
theorem any_contains_mergeTouching {spans : List Span} (ordered : ∀ s ∈ spans, s.start ≤ s.stop)
    (offset : Nat) :
    (mergeTouching spans).any (·.contains offset) = spans.any (·.contains offset) ∧
      ∀ s ∈ mergeTouching spans, s.start ≤ s.stop := by
  induction spans with
  | nil => simp [mergeTouching]
  | cons s rest ih =>
    obtain ⟨same, later⟩ := ih fun t ht => ordered t (by simp [ht])
    have own := ordered s (by simp)
    rw [List.any_cons, ← same, mergeTouching]
    split
    · next h => simp_all
    · next t more h =>
      have tOrdered := later t (by simp [h])
      split
      · next touch =>
        refine ⟨?_, ?_⟩
        · rw [h, List.any_cons, List.any_cons, ← Bool.or_assoc]
          congr 1
          simp only [Span.contains]
          rw [Bool.eq_iff_iff]
          simp only [Bool.and_eq_true, Bool.or_eq_true, decide_eq_true_eq]
          omega
        · intro u hu
          rcases List.mem_cons.1 hu with rfl | hu
          · exact Nat.le_trans own (touch ▸ tOrdered)
          · exact later u (by simp [h, hu])
      · refine ⟨by simp [h], ?_⟩
        intro u hu
        rcases List.mem_cons.1 hu with rfl | hu
        · exact own
        · exact later u (by simp only [h]; exact hu)

/-! ## Scans -/

/-- A parameter marker. -/
inductive Marker where
  | positional (offset : Nat)
  | named (name : String) (span : Span)
  deriving DecidableEq, Repr

/-- The bytes of a marker. -/
def Marker.span : Marker → Span
  | .positional offset => ⟨offset, offset + 1⟩
  | .named _ span => span

/-- What a scan finds, in the order of the text. -/
structure Scan where
  markers : List Marker
  literals : List Span
  deriving DecidableEq, Repr

/-- The markers among lexemes that start at a byte. -/
def markersFrom (offset : Nat) : List Lexeme → List Marker
  | [] => []
  | l :: rest =>
    let stop := offset + byteSize l.chars
    match l with
    | .positional => .positional offset :: markersFrom stop rest
    | .named name => .named (String.ofList name) ⟨offset, stop⟩ :: markersFrom stop rest
    | _ => markersFrom stop rest

/-- The spans of the literals among lexemes that start at a byte. -/
def literalsFrom (offset : Nat) : List Lexeme → List Span
  | [] => []
  | l :: rest =>
    let stop := offset + byteSize l.chars
    match l with
    | .literal _ => ⟨offset, stop⟩ :: literalsFrom stop rest
    | _ => literalsFrom stop rest

/-- The markers and literals of a text. -/
def scan (text : String) : Except Error Scan := do
  let ls ← lexemes text.toList
  return ⟨markersFrom 0 ls, mergeTouching (literalsFrom 0 ls)⟩

namespace Scan

/-- Whether a byte lies in a literal. -/
def inLiteral (s : Scan) (offset : Nat) : Bool :=
  s.literals.any (·.contains offset)

/-- The number of positional markers. -/
def positionalCount (s : Scan) : Nat :=
  s.markers.countP fun
    | .positional _ => true
    | .named .. => false

end Scan

end Orm.Sql
