import Mathlib.Data.List.Basic
import Orm.Sql.Dialect

/-!
# `Proofs.Sql.Truth` — what conditions are true of

A condition that stands in a statement is read by the database and not by us. Here is how it is read.
The text is a row of words, quoted texts and signs, in which brackets nest. On each level `OR` stands
between alternatives, and within an alternative `AND` stands between terms, where the first `AND`
after a `BETWEEN` is part of its term. A term may be negated; it is a condition in parentheses, or a
predicate. What predicates are true of is given, and a predicate may be of unknown truth, for values
may be missing. A row is accepted when the condition is true.

A term put behind a condition with `AND` belongs to the last alternative and to no other.

## Contents
- **Truth.** `Truth` with `not`, `and`, `or`.
- **Tokens.** `Token`, `Scanner`, `scan`, `tokens`, `tokens_append`, `Whole`.
- **Nesting.** `Item`, `Nesting`, `nest`, `read`, `read_and`, `read_parentheses`.
- **Evaluation.** `Reading`, `judge`, `evaluate`, `truth`.
- **Limits.** `IsPredicate`, `truth_and`.
- **Texts.** `IsCondition`, `accepts_and_iff`, `limits_iff`, `accepts_parentheses_and_iff`.
-/

namespace Orm.Sql.Search

/-! ## Truth -/

/-- What a condition can be of a row; it is unknown when a value is missing. -/
inductive Truth where
  | no
  | unknown
  | yes
  deriving DecidableEq, Repr

namespace Truth

def not : Truth → Truth
  | no => yes
  | unknown => unknown
  | yes => no

def and : Truth → Truth → Truth
  | no, _ => no
  | unknown, no => no
  | unknown, _ => unknown
  | yes, t => t

def or : Truth → Truth → Truth
  | yes, _ => yes
  | unknown, yes => yes
  | unknown, _ => unknown
  | no, t => t

variable {a b : Truth}

@[simp]
theorem and_eq_yes : a.and b = yes ↔ a = yes ∧ b = yes := by
  cases a <;> cases b <;> decide

@[simp]
theorem or_eq_yes : a.or b = yes ↔ a = yes ∨ b = yes := by
  cases a <;> cases b <;> decide

end Truth

/-! ## Tokens -/

inductive Token where
  /-- A keyword, a name that is not quoted, with the points in it, or a number. -/
  | word (text : List Char)
  /-- A literal or a quoted name, with its quotes. -/
  | quoted (text : List Char)
  | sign (c : Char)
  deriving DecidableEq, Repr

/-- Whether words are made of the character. -/
def isWordChar (c : Char) : Bool :=
  c.isAlphanum || c == '_' || c == '$' || c == '.' || 128 ≤ c.toNat

/-- Whether the character opens a literal or a quoted name. -/
def isQuote (c : Char) : Bool :=
  c == '\x27' || c == '\x22' || c == '\x60'

/-- What the reader of tokens is in the middle of, with what it has read of it in reverse. -/
inductive Scanner where
  | between
  | word (read : List Char)
  /-- A sign that the next one may turn into the start of a comment. -/
  | sign (c : Char)
  | quoted (quote : Char) (read : List Char)
  /-- The next character of the literal is protected. -/
  | escape (read : List Char)
  /-- Comments are not read. -/
  | comment
  deriving DecidableEq, Repr

/-- A character after a token. -/
def begin (c : Char) : List Token × Scanner :=
  if isWordChar c then ([], .word [c])
  else if isQuote c then ([], .quoted c [c])
  else if c.isWhitespace then ([], .between)
  else if c = '-' ∨ c = '/' then ([], .sign c)
  else ([.sign c], .between)

/-- Whether two signs start a comment. -/
def startsComment (first second : Char) : Bool :=
  (first == '-' && second == '-') || (first == '/' && second == '*')

/-- One character: the tokens that are now complete, and what the reader is in the middle of. -/
def advance (m : Scanner) (c : Char) : List Token × Scanner :=
  match m with
  | .between => begin c
  | .word read =>
    if isWordChar c then ([], .word (c :: read))
    else (.word read.reverse :: (begin c).1, (begin c).2)
  | .sign s =>
    if startsComment s c then ([], .comment) else (.sign s :: (begin c).1, (begin c).2)
  | .quoted q read =>
    if q = '\x27' ∧ c = '\\' then ([], .escape (c :: read))
    else if c = q then ([.quoted (c :: read).reverse], .between)
    else ([], .quoted q (c :: read))
  | .escape read => ([], .quoted '\x27' (c :: read))
  | .comment => ([], .comment)

/-- The tokens of a text, and what the reader is in the middle of at its end. -/
def scan (m : Scanner) : List Char → List Token × Scanner
  | [] => ([], m)
  | c :: rest => ((advance m c).1 ++ (scan (advance m c).2 rest).1, (scan (advance m c).2 rest).2)

/-- The token that the end of a text completes. No quote may be open, and there are no comments. -/
def close? : Scanner → Option (List Token)
  | .between => some []
  | .word read => some [.word read.reverse]
  | .sign c => some [.sign c]
  | .quoted _ _ | .escape _ | .comment => none

/-- The tokens of a text. -/
def tokens (text : List Char) : Option (List Token) :=
  (close? (scan .between text).2).map ((scan .between text).1 ++ ·)

/-- Whether the character completes any token before it, quoted ones apart. -/
def isApart (c : Char) : Bool :=
  !isWordChar c && c != '-' && c != '*'

theorem scan_append (m : Scanner) (a b : List Char) :
    scan m (a ++ b) = ((scan m a).1 ++ (scan (scan m a).2 b).1, (scan (scan m a).2 b).2) := by
  induction a generalizing m with
  | nil => rfl
  | cons c rest ih => simp [scan, ih]

theorem advance_of_apart {m : Scanner} {last : List Token} (h : close? m = some last) {c : Char}
    (apart : isApart c) : advance m c = (last ++ (begin c).1, (begin c).2) := by
  simp only [isApart, Bool.and_eq_true, Bool.not_eq_true', bne_iff_ne] at apart
  obtain ⟨⟨noWord, noDash⟩, noStar⟩ := apart
  cases m with
  | between =>
    cases h
    rfl
  | word read =>
    cases h
    simp [advance, noWord]
  | sign s =>
    cases h
    simp [advance, startsComment, noDash, noStar]
  | quoted q read => cases h
  | escape read => cases h
  | comment => cases h

/-- Texts are read one after the other where no token spans both. -/
theorem tokens_append {a b : List Char} {ta tb : List Token} (ha : tokens a = some ta)
    (hb : tokens b = some tb) (apart : ∀ c ∈ b.head?, isApart c) : tokens (a ++ b) = some (ta ++ tb) := by
  obtain ⟨last, closed, rfl⟩ := Option.map_eq_some_iff.mp ha
  cases b with
  | nil =>
    obtain rfl : [] = tb := Option.some.inj hb
    rw [List.append_nil, List.append_nil]
    exact ha
  | cons c rest =>
    obtain ⟨end_, closed', rfl⟩ := Option.map_eq_some_iff.mp hb
    have next := advance_of_apart closed (apart c rfl)
    have whole : scan .between (a ++ c :: rest) = ((scan .between a).1 ++ (last ++
        (scan .between (c :: rest)).1), (scan .between (c :: rest)).2) := by
      rw [scan_append, scan, next]
      simp only [scan, advance, List.append_assoc]
    unfold tokens
    rw [whole, closed']
    simp only [Option.map_some, List.append_assoc]

/-- Where a text starts with such a character. -/
theorem startsWith_apart {c : Char} (apart : isApart c) {text : List Char}
    (first : text.head? = some c) : ∀ c ∈ text.head?, isApart c := by
  intro c' hc
  rw [first] at hc
  exact Option.some.inj hc ▸ apart

/-- A text that is read to these tokens, whatever stands behind it. -/
def Whole (text : List Char) (ts : List Token) : Prop :=
  scan .between text = (ts, .between)

namespace Whole

variable {a b : List Char} {ta tb : List Token}

theorem tokens_append (ha : Whole a ta) (hb : tokens b = some tb) :
    tokens (a ++ b) = some (ta ++ tb) := by
  obtain ⟨last, closed, rfl⟩ := Option.map_eq_some_iff.mp hb
  unfold tokens
  rw [scan_append, ha, closed]
  exact congrArg some (List.append_assoc _ _ _)

theorem tokens (h : Whole a ta) : Search.tokens a = some ta := by
  unfold Search.tokens
  rw [h]
  exact congrArg some (List.append_nil _)

end Whole

/-- Characters of words are read as one word. -/
theorem scan_word (read text : List Char) (h : ∀ c ∈ text, isWordChar c) :
    scan (.word read) text = ([], .word (text.reverse ++ read)) := by
  induction text generalizing read with
  | nil => rfl
  | cons c rest ih =>
    have here := h c List.mem_cons_self
    rw [scan, advance, if_pos here]
    simp only [ih _ fun c' hc' => h c' (List.mem_cons_of_mem c hc'), List.nil_append,
      List.reverse_cons, List.append_assoc, List.cons_append]

theorem tokens_word {text : List Char} (ne : text ≠ []) (h : ∀ c ∈ text, isWordChar c) :
    tokens text = some [.word text] := by
  obtain ⟨c, rest, rfl⟩ := List.exists_cons_of_ne_nil ne
  have first : advance .between c = ([], .word [c]) := by
    rw [advance, begin, if_pos (h c List.mem_cons_self)]
  have all : scan .between (c :: rest) = ([], .word (rest.reverse ++ [c])) := by
    rw [scan, first, scan_word _ _ fun c' hc' => h c' (List.mem_cons_of_mem c hc')]
    rfl
  unfold tokens
  rw [all]
  simp [close?]

/-- Whether a character quotes names. -/
def QuotesNames (q : Char) : Prop :=
  q = '\x22' ∨ q = '\x60'

instance (q : Char) : Decidable (QuotesNames q) :=
  inferInstanceAs (Decidable (q = '\x22' ∨ q = '\x60'))

/-- The inside of a quoted name and its last quote. A doubled quote closes one quoted text and opens
the next. -/
theorem exists_scan_quoted {q : Char} (hq : QuotesNames q) (name read : List Char) :
    ∃ text ts, scan (.quoted q read) (doubled q name ++ [q]) = (.quoted text :: ts, .between) ∧
      ∀ t ∈ ts, ∃ text, t = .quoted text := by
  have noLiteral : q ≠ '\x27' := by rcases hq with rfl | rfl <;> decide
  have opens : begin q = ([], .quoted q [q]) := by rcases hq with rfl | rfl <;> rfl
  have ends : ∀ read, advance (.quoted q read) q = ([.quoted (q :: read).reverse], .between) := by
    intro read
    simp [advance, noLiteral]
  induction name generalizing read with
  | nil =>
    refine ⟨(q :: read).reverse, [], ?_, by simp⟩
    show scan _ [q] = _
    rw [scan, ends]
    rfl
  | cons c rest ih =>
    by_cases same : c = q
    · subst same
      obtain ⟨text, ts, later, quoted⟩ := ih [c]
      refine ⟨(c :: read).reverse, .quoted text :: ts, ?_, List.forall_mem_cons.mpr ⟨⟨_, rfl⟩, quoted⟩⟩
      rw [doubled_cons_self, List.cons_append, List.cons_append, scan, ends, scan]
      simp only [advance, opens, later]
      rfl
    · obtain ⟨text, ts, later, quoted⟩ := ih (c :: read)
      refine ⟨text, ts, ?_, quoted⟩
      have next : advance (.quoted q read) c = ([], .quoted q (c :: read)) := by
        simp [advance, noLiteral, same]
      rw [doubled_cons_of_ne same, List.cons_append, scan, next, later]
      rfl

/-- A quoted name is read as quoted texts. -/
theorem exists_whole_quoteChars {q : Char} (hq : QuotesNames q) (name : List Char) :
    ∃ text ts, Whole (quoteChars q name) (.quoted text :: ts) ∧ ∀ t ∈ ts, ∃ text, t = .quoted text := by
  obtain ⟨text, ts, inside, quoted⟩ := exists_scan_quoted hq name [q]
  have opens : begin q = ([], .quoted q [q]) := by rcases hq with rfl | rfl <;> rfl
  refine ⟨text, ts, ?_, quoted⟩
  show scan .between (q :: (doubled q name ++ [q])) = _
  rw [scan]
  simp only [advance, opens, inside]
  rfl

/-! ## Nesting -/

inductive Bracket where
  | round
  | square
  /-- What stands between `CASE` and `END`. -/
  | cases
  deriving DecidableEq, Repr

/-- Whether a word is a keyword, which may be in small letters. -/
def isKeyword (keyword : String) (word : List Char) : Bool :=
  word.map Char.toUpper == keyword.toList

/-- The bracket that a token opens. -/
def Token.opens? : Token → Option Bracket
  | .word text => if isKeyword "CASE" text then some .cases else none
  | .quoted _ => none
  | .sign c => if c = '(' then some .round else if c = '[' then some .square else none

/-- The bracket that a token closes. -/
def Token.closes? : Token → Option Bracket
  | .word text => if isKeyword "END" text then some .cases else none
  | .quoted _ => none
  | .sign c => if c = ')' then some .round else if c = ']' then some .square else none

/-- Whether a token is no bracket. -/
def Token.isInner (t : Token) : Bool :=
  t.opens?.isNone && t.closes?.isNone

/-- A token that is no bracket, or what stands between two. -/
inductive Item where
  | token (t : Token)
  | group (b : Bracket) (inside : List Item)

/-- The brackets that are open, the innermost first, each with what stands before it, and what stands
behind the innermost. -/
structure Nesting where
  outer : List (Bracket × List Item)
  items : List Item

/-- One more token; a bracket must close the one that was opened last. -/
def Nesting.place (n : Nesting) (t : Token) : Option Nesting :=
  match t.opens?, t.closes? with
  | some b, _ => some ⟨(b, n.items) :: n.outer, []⟩
  | none, none => some ⟨n.outer, n.items ++ [.token t]⟩
  | none, some b =>
    match n.outer with
    | [] => none
    | (opened, before) :: rest =>
      if opened = b then some ⟨rest, before ++ [.group b n.items]⟩ else none

/-- The items of a row of tokens, in which all brackets must be closed. -/
def nest (ts : List Token) : Option (List Item) :=
  (ts.foldlM Nesting.place ⟨[], []⟩).bind fun n => if n.outer.isEmpty then some n.items else none

/-- The items of a text. -/
def read (text : String) : Option (List Item) :=
  (tokens text.toList).bind nest

theorem nest_eq_some_iff {ts : List Token} {items : List Item} :
    nest ts = some items ↔ ts.foldlM Nesting.place ⟨[], []⟩ = some ⟨[], items⟩ := by
  unfold nest
  rw [Option.bind_eq_some_iff]
  constructor
  · rintro ⟨⟨outer, items⟩, placed, h⟩
    split at h
    next closed =>
      cases h
      cases List.isEmpty_iff.mp closed
      exact placed
    next => cases h
  · intro placed
    exact ⟨_, placed, rfl⟩

/-- Tokens that are no brackets are placed as they are. -/
theorem foldlM_place {ts : List Token} (h : ∀ t ∈ ts, t.isInner) (n : Nesting) :
    ts.foldlM Nesting.place n = some ⟨n.outer, n.items ++ ts.map .token⟩ := by
  induction ts generalizing n with
  | nil => simp
  | cons t rest ih =>
    have inner := h t List.mem_cons_self
    simp only [Token.isInner, Bool.and_eq_true, Option.isNone_iff_eq_none] at inner
    have here : n.place t = some ⟨n.outer, n.items ++ [.token t]⟩ := by
      simp [Nesting.place, inner]
    rw [List.foldlM_cons, here]
    show rest.foldlM _ _ = _
    rw [ih fun t ht => h t (List.mem_cons_of_mem _ ht)]
    simp

/-- Open brackets on top of others: the outermost of them stands behind the items that were there. -/
def stacked (base : Nesting) : List (Bracket × List Item) → List (Bracket × List Item)
  | [] => base.outer
  | [(b, before)] => (b, base.items ++ before) :: base.outer
  | opened :: next :: rest => opened :: stacked base (next :: rest)

/-- What is placed behind what was there before. -/
def Nesting.behind (base n : Nesting) : Nesting :=
  ⟨stacked base n.outer, if n.outer.isEmpty then base.items ++ n.items else n.items⟩

/-- What stands before does not matter to where a token is placed. -/
theorem place_behind {base n n' : Nesting} {t : Token} (h : n.place t = some n') :
    (base.behind n).place t = some (base.behind n') := by
  obtain ⟨outer, items⟩ := n
  unfold Nesting.place at h ⊢
  cases opens : t.opens? with
  | some b =>
    rw [opens] at h
    cases h
    cases outer <;> rfl
  | none =>
    rw [opens] at h
    cases closes : t.closes? with
    | none =>
      rw [closes] at h
      cases h
      cases outer
      · simp [Nesting.behind, stacked]
      · rfl
    | some b =>
      rw [closes] at h
      cases outer with
      | nil => cases h
      | cons first rest =>
        obtain ⟨opened, before⟩ := first
        by_cases same : opened = b
        · simp only [same, if_true] at h
          cases h
          cases rest
          · simp [Nesting.behind, stacked, same]
          · simp [Nesting.behind, stacked, same]
        · simp [same] at h

theorem foldlM_place_behind (base : Nesting) {n n' : Nesting} {ts : List Token}
    (h : ts.foldlM Nesting.place n = some n') :
    ts.foldlM Nesting.place (base.behind n) = some (base.behind n') := by
  induction ts generalizing n with
  | nil =>
    cases h
    rfl
  | cons t rest ih =>
    rw [List.foldlM_cons] at h ⊢
    obtain ⟨n₁, placed, later⟩ := Option.bind_eq_some_iff.mp h
    rw [place_behind placed]
    exact ih later

/-- Rows of tokens in which all brackets are closed nest one after the other. -/
theorem nest_append {ta tb : List Token} {ia ib : List Item} (ha : nest ta = some ia)
    (hb : nest tb = some ib) : nest (ta ++ tb) = some (ia ++ ib) := by
  rw [nest_eq_some_iff] at ha hb ⊢
  rw [List.foldlM_append, ha]
  have behind := foldlM_place_behind ⟨[], ia⟩ hb
  simpa [Nesting.behind, stacked] using behind

/-- Tokens that are no brackets are the items. -/
theorem nest_inner {ts : List Token} (h : ∀ t ∈ ts, t.isInner) :
    nest ts = some (ts.map .token) :=
  nest_eq_some_iff.mpr (foldlM_place h _)

/-- What nests in itself is one item in parentheses. -/
theorem nest_parentheses {ts : List Token} {items : List Item} (h : nest ts = some items) :
    nest (.sign '(' :: (ts ++ [.sign ')'])) = some [.group .round items] := by
  rw [nest_eq_some_iff] at h ⊢
  have inside := foldlM_place_behind ⟨[(.round, [])], []⟩ h
  rw [List.foldlM_cons]
  show (ts ++ [Token.sign ')']).foldlM Nesting.place (Nesting.behind ⟨[(.round, [])], []⟩ ⟨[], []⟩) = _
  rw [List.foldlM_append, inside]
  rfl

/-- The word between terms. -/
def andItem : Item :=
  .token (.word "AND".toList)

/-- Two texts with `AND` between them are read to the items of both. -/
theorem read_and {a b : String} {ia ib : List Item} (ha : read a = some ia)
    (hb : read b = some ib) : read (a ++ " AND " ++ b) = some (ia ++ andItem :: ib) := by
  obtain ⟨ta, read_a, nest_a⟩ := Option.bind_eq_some_iff.mp ha
  obtain ⟨tb, read_b, nest_b⟩ := Option.bind_eq_some_iff.mp hb
  have word : Whole " AND ".toList [.word "AND".toList] := by rfl
  have later := word.tokens_append read_b
  have space : isApart ' ' := by decide
  have all := tokens_append read_a later (startsWith_apart space (by rfl))
  have nested : nest [.word "AND".toList] = some [andItem] := by rfl
  unfold read
  rw [String.toList_append, String.toList_append, List.append_assoc, all]
  exact nest_append nest_a (nest_append nested nest_b)

/-- A text in parentheses is one item. -/
theorem read_parentheses {a : String} {items : List Item} (h : read a = some items) :
    read ("(" ++ a ++ ")") = some [.group .round items] := by
  obtain ⟨ts, tokens_a, nest_a⟩ := Option.bind_eq_some_iff.mp h
  have opens : Whole "(".toList [.sign '('] := by rfl
  have closes : tokens ")".toList = some [.sign ')'] := by rfl
  have last : isApart ')' := by decide
  have inside := tokens_append tokens_a closes (startsWith_apart last (by rfl))
  unfold read
  rw [String.append_assoc, String.toList_append, String.toList_append, opens.tokens_append inside]
  exact nest_parentheses nest_a

/-! ## Evaluation -/

/-- Whether an item is a keyword. -/
def Item.isWord (keyword : String) : Item → Bool
  | .token (.word text) => isKeyword keyword text
  | _ => false

/-- What has been read of a condition on one level of nesting: whether an alternative is true that is
complete, whether the complete terms of the next one are, and its last term so far, whose items come
with what each is true of alone. After a `BETWEEN` an `AND` is pending that is part of the term. -/
structure Reading where
  earlier : Truth := .no
  terms : Truth := .yes
  term : List (Item × Truth) := []
  pending : Bool := false

/-- What a term is true of, when it is given what predicates are true of. -/
def judge (v : List Item → Truth) : List (Item × Truth) → Truth
  | [] => v []
  | [(_, t)] => t
  | (i, _) :: next :: rest =>
    if i.isWord "NOT" then (judge v (next :: rest)).not
    else v (i :: next.1 :: rest.map (·.1))

namespace Reading

variable (v : List Item → Truth) (r : Reading)

/-- What the last alternative is true of. -/
def last : Truth :=
  r.terms.and (judge v r.term)

/-- What the condition is true of. -/
def truth : Truth :=
  r.earlier.or (r.last v)

/-- One more item. -/
def next (i : Item × Truth) : Reading :=
  if i.1.isWord "OR" then { earlier := r.truth v }
  else if i.1.isWord "AND" ∧ r.pending = false then { earlier := r.earlier, terms := r.last v }
  else { r with
    term := r.term ++ [i]
    pending := i.1.isWord "BETWEEN" || (r.pending && !i.1.isWord "AND") }

end Reading

/-- Whether items are a query, which stands in parentheses without being a condition. -/
def isQuery : List Item → Bool
  | [] => false
  | i :: _ => i.isWord "SELECT" || i.isWord "VALUES" || i.isWord "WITH"

mutual

/-- What an item is true of alone. In parentheses there is a condition. -/
def Item.truth (v : List Item → Truth) : Item → Truth
  | .token t => v [.token t]
  | .group b inside =>
    if b = .round ∧ isQuery inside = false then (evaluate v {} inside).truth v
    else v [.group b inside]

/-- Reads the items of one level of nesting. -/
def evaluate (v : List Item → Truth) (r : Reading) : List Item → Reading
  | [] => r
  | i :: rest => evaluate v (r.next v (i, i.truth v)) rest

end

/-- What a condition is true of, when it is given what predicates are true of. -/
def truth (v : List Item → Truth) (items : List Item) : Truth :=
  (evaluate v {} items).truth v

theorem evaluate_append (v : List Item → Truth) (r : Reading) (a b : List Item) :
    evaluate v r (a ++ b) = evaluate v (evaluate v r a) b := by
  induction a generalizing r with
  | nil => rw [List.nil_append, evaluate]
  | cons i rest ih => rw [List.cons_append, evaluate, evaluate, ih]

/-! ## Limits -/

/-- The words that conditions are put together with. -/
def Item.isConnective (i : Item) : Bool :=
  i.isWord "OR" || i.isWord "AND" || i.isWord "NOT" || i.isWord "BETWEEN"

/-- Items that are a single predicate. -/
structure IsPredicate (atom : List Item) : Prop where
  several : 2 ≤ atom.length
  inner : ∀ i ∈ atom, i.isConnective = false

/-- Items that put nothing together belong to the last term. -/
theorem evaluate_inner (v : List Item → Truth) (r : Reading) {items : List Item}
    (h : ∀ i ∈ items, i.isConnective = false) :
    evaluate v r items = { r with term := r.term ++ items.map fun i => (i, i.truth v) } := by
  induction items generalizing r with
  | nil => rw [evaluate, List.map_nil, List.append_nil]
  | cons i rest ih =>
    have here := h i List.mem_cons_self
    simp only [Item.isConnective, Bool.or_eq_false_iff] at here
    obtain ⟨⟨⟨noOr, noAnd⟩, -⟩, noBetween⟩ := here
    have next : r.next v (i, i.truth v) = { r with term := r.term ++ [(i, i.truth v)] } := by
      simp [Reading.next, noOr, noAnd, noBetween]
    rw [evaluate, next, ih _ fun i hi => h i (List.mem_cons_of_mem _ hi)]
    simp

/-- A predicate is true of what it is given to be true of. -/
theorem judge_predicate (v : List Item → Truth) {atom : List Item} (h : IsPredicate atom) :
    judge v (atom.map fun i => (i, i.truth v)) = v atom := by
  obtain ⟨several, inner⟩ := h
  match atom, several with
  | i :: next :: rest, _ =>
    have here := inner i List.mem_cons_self
    simp only [Item.isConnective, Bool.or_eq_false_iff] at here
    simp [judge, here.1.2, Function.comp_def]

theorem truth_predicate (v : List Item → Truth) {atom : List Item} (h : IsPredicate atom) :
    truth v atom = v atom := by
  unfold truth
  rw [evaluate_inner v _ h.inner, Reading.truth, Reading.last, List.nil_append, judge_predicate v h]
  rfl

/-- **A predicate behind `AND` is a term of the last alternative.** -/
theorem truth_and {v : List Item → Truth} {items atom : List Item}
    (complete : (evaluate v {} items).pending = false) (h : IsPredicate atom) :
    truth v (items ++ andItem :: atom) =
      (evaluate v {} items).earlier.or (((evaluate v {} items).last v).and (v atom)) := by
  have noOr : andItem.isWord "OR" = false := by decide
  have isAnd : andItem.isWord "AND" = true := by decide
  have next : ∀ t, (evaluate v {} items).next v (andItem, t) =
      { earlier := (evaluate v {} items).earlier, terms := (evaluate v {} items).last v } := by
    intro t
    simp [Reading.next, noOr, isAnd, complete]
  unfold truth
  rw [evaluate_append, evaluate, next, evaluate_inner v _ h.inner]
  simp only [Reading.truth, Reading.last, List.nil_append, judge_predicate v h]

/-! ## Texts -/

/-- A text that is a condition: its quotes and brackets are closed, and no `BETWEEN` lacks its `AND`. -/
def IsCondition (text : String) : Prop :=
  ∃ items, read text = some items ∧ ∀ v, (evaluate v {} items).pending = false

section

variable (v : List Item → Truth) (text : String)

/-- A condition is true. -/
def accepts : Prop :=
  ∃ items, read text = some items ∧ truth v items = .yes

/-- One of the alternatives before the last one is true. -/
def acceptsEarlier : Prop :=
  ∃ items, read text = some items ∧ (evaluate v {} items).earlier = .yes

/-- The last alternative is true. -/
def acceptsLast : Prop :=
  ∃ items, read text = some items ∧ (evaluate v {} items).last v = .yes

end

section

variable {v : List Item → Truth} {own limit : String} {items atom : List Item}

theorem accepts_iff_truth (h : read own = some items) : accepts v own ↔ truth v items = .yes :=
  ⟨fun ⟨_, same, yes⟩ => Option.some.inj (h.symm.trans same) ▸ yes, fun yes => ⟨items, h, yes⟩⟩

theorem acceptsEarlier_iff (h : read own = some items) :
    acceptsEarlier v own ↔ (evaluate v {} items).earlier = .yes :=
  ⟨fun ⟨_, same, yes⟩ => Option.some.inj (h.symm.trans same) ▸ yes, fun yes => ⟨items, h, yes⟩⟩

theorem acceptsLast_iff (h : read own = some items) :
    acceptsLast v own ↔ (evaluate v {} items).last v = .yes :=
  ⟨fun ⟨_, same, yes⟩ => Option.some.inj (h.symm.trans same) ▸ yes, fun yes => ⟨items, h, yes⟩⟩

/-- A condition is true when one of its alternatives is. -/
theorem accepts_iff (h : IsCondition own) :
    accepts v own ↔ acceptsEarlier v own ∨ acceptsLast v own := by
  obtain ⟨items, reads, -⟩ := h
  rw [accepts_iff_truth reads, acceptsEarlier_iff reads, acceptsLast_iff reads]
  exact Truth.or_eq_yes

/-- **A predicate behind a condition limits its last alternative.** -/
theorem accepts_and_iff (h : IsCondition own) (reads : read limit = some atom)
    (predicate : IsPredicate atom) : accepts v (own ++ " AND " ++ limit) ↔
      acceptsEarlier v own ∨ (acceptsLast v own ∧ accepts v limit) := by
  obtain ⟨items, own_reads, complete⟩ := h
  rw [accepts_iff_truth (read_and own_reads reads), acceptsEarlier_iff own_reads,
    acceptsLast_iff own_reads, accepts_iff_truth reads, truth_and (complete v) predicate,
    truth_predicate v predicate, Truth.or_eq_yes, Truth.and_eq_yes]

/-- **When a predicate behind a condition limits all of it.** -/
theorem limits_iff (h : IsCondition own) (reads : read limit = some atom)
    (predicate : IsPredicate atom) :
    (accepts v (own ++ " AND " ++ limit) ↔ accepts v own ∧ accepts v limit) ↔
      (accepts v limit ∨ ¬ acceptsEarlier v own) := by
  rw [accepts_and_iff h reads predicate, accepts_iff h]
  constructor
  · intro same
    by_cases earlier : acceptsEarlier v own
    · exact .inl (same.mp (.inl earlier)).2
    · exact .inr earlier
  · rintro (limited | none)
    · constructor
      · exact fun h => ⟨h.imp_right And.left, limited⟩
      · exact fun h => h.1.imp_right fun last => ⟨last, limited⟩
    · rw [or_iff_right none, or_iff_right none]

/-- **In parentheses a condition is limited as a whole.** -/
theorem accepts_parentheses_and_iff (reads_own : read own = some items) (noQuery : isQuery items = false)
    (reads : read limit = some atom) (predicate : IsPredicate atom) :
    accepts v ("(" ++ own ++ ")" ++ " AND " ++ limit) ↔ accepts v own ∧ accepts v limit := by
  have group := read_parentheses reads_own
  have complete : (evaluate v {} [.group .round items]).pending = false := by rfl
  rw [accepts_iff_truth (read_and group reads), accepts_iff_truth reads_own, accepts_iff_truth reads,
    truth_and complete predicate, truth_predicate v predicate]
  have alone : Item.truth v (.group .round items) = truth v items := by
    rw [Item.truth, if_pos ⟨rfl, noQuery⟩]
    rfl
  have last : (evaluate v {} [.group .round items]).last v = truth v items := alone
  have earlier : (evaluate v {} [.group .round items]).earlier = .no := by rfl
  rw [last, earlier]
  exact Truth.and_eq_yes

end

end Orm.Sql.Search
