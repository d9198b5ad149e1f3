import Orm.Proofs.Statement.Parameters

/-!
# `Proofs.Statement.Verbatim` — statements without raw text

A plan whose types state no text of their own leads to a statement of names, fixed words and places
for values. What that statement should be can be said without reading any text: it is a list of
parts, in which names stand as the dialect writes them. Rendering arrives at the same text when the
names are inert, although it reads the whole text twice on its way.

A name that is not inert is read into: a question mark in it is taken for a marker, and a brace or an
apostrophe may open a reference or a literal.

## Contents
- **Parts.** `Segment`, `between`, `marked`, `numbered`.
- **Statements.** `restrictionParts`, `joinParts`, `Plan.parts`, `Plan.limits`.
- **Assembling.** `text_assemble`, `inert_parts`.
- **Reading.** `exists_settled_marked`.
- **Rendering.** `Plan.render_verbatim`.
-/

namespace Orm

open Text Sql Plan

/-! ## Parts -/

/-- A part of a statement. -/
inductive Segment where
  | text (text : String)
  /-- The place of a value. -/
  | value

/-- Lists of parts with a text between neighbours. -/
def between (separator : String) : List (List Segment) → List Segment
  | [] => []
  | [parts] => parts
  | parts :: next :: rest => parts ++ .text separator :: between separator (next :: rest)

/-- The text of parts with a positional marker for each value. -/
def marked : List Segment → String
  | [] => ""
  | .text text :: rest => text ++ marked rest
  | .value :: rest => "?" ++ marked rest

/-- The text of parts with the placeholders of a dialect, when `count` values stand before it. -/
def numbered (d : Dialect) : Nat → List Segment → String
  | _, [] => ""
  | count, .text text :: rest => text ++ numbered d count rest
  | count, .value :: rest => d.placeholderText (count + 1) ++ numbered d (count + 1) rest

/-! ## Statements -/

/-- A column limited to some names. -/
def restrictionParts (d : Dialect) (r : Restriction) : List Segment :=
  .text (columnText d r.column ++ " IN (") :: between ", " (r.values.map fun _ => [.value]) ++
    [.text ")"]

/-- A joined table. -/
def joinParts (d : Dialect) (a : Alias) (j : Join) : List Segment :=
  .text (j.type.keyword ++ " " ++ tableText d a ++ " ON " ++ conditionText d j.condition) ::
    j.restriction.toList.flatMap fun r => .text " AND " :: restrictionParts d r

/-- The lines of a statement. -/
def Plan.lines (p : Plan) (d : Dialect) (root : Alias) (joined : List Alias) : List (List Segment) :=
  [[.text ("SELECT " ++ joinWith ", " (p.select.map (itemText d)))],
    [.text ("FROM " ++ tableText d root)]] ++
  joined.filterMap (fun a => a.join.map (joinParts d a)) ++
  (p.restriction.map fun r => .text "WHERE " :: restrictionParts d r).toList ++
  if p.groupBy.isEmpty then []
  else [[.text ("GROUP BY " ++ joinWith ", " (p.groupBy.map (expressionText d)))]]

/-- The statement of a plan without raw text. -/
def Plan.parts (p : Plan) (d : Dialect) : List Segment :=
  match p.aliases with
  | [] => []
  | root :: joined => between "\n" (p.lines d root joined)

/-- The values that the tables of a plan are limited to: those of the joined tables, then those of
the root. -/
def Plan.limits (p : Plan) : List Value :=
  p.aliases.tail.flatMap (fun a => a.join.toList.flatMap fun j =>
    j.restriction.toList.flatMap (·.bound)) ++ p.restriction.toList.flatMap (·.bound)

/-! ## Assembling -/

@[simp]
theorem marked_append (a b : List Segment) : marked (a ++ b) = marked a ++ marked b := by
  induction a with
  | nil => simp [marked]
  | cons part rest ih => cases part <;> simp [marked, ih, String.append_assoc]

theorem marked_between (separator : String) (lines : List (List Segment)) :
    marked (between separator lines) = joinWith separator (lines.map marked) := by
  induction lines with
  | nil => rfl
  | cons parts rest ih =>
    cases rest with
    | nil => rfl
    | cons next more =>
      simp only [List.map_cons] at ih ⊢
      simp only [between, marked_append, marked, ih, joinWith, String.append_assoc]

section

variable {p : Plan} {d : Dialect}

/-- A limit is assembled from its parts. -/
theorem text_restrictionPiece (r : Restriction) :
    (restrictionPiece d r).text = marked (restrictionParts d r) := by
  have marks : (r.values.map fun _ => [Segment.value]).map marked = r.values.map fun _ => "?" := by
    rw [List.map_map]
    rfl
  simp only [restrictionPiece, restrictionParts, marked, List.cons_append, marked_append,
    marked_between, marks, String.append_empty, String.append_assoc]

theorem text_joinPiece (a : Alias) (j : Join) :
    (joinPiece d a j).text = marked (joinParts d a j) := by
  cases limit : j.restriction with
  | none => simp [joinPiece, joinParts, limit, Fragment.plain, marked]
  | some r =>
    simp [joinPiece, joinParts, limit, Fragment.plain, Fragment.append, marked,
      text_restrictionPiece, String.append_assoc]

theorem text_joinPieces (aliases : List Alias) :
    (joinPieces d aliases).map (·.text) =
      (aliases.filterMap fun a => a.join.map (joinParts d a)).map marked := by
  induction aliases with
  | nil => rfl
  | cons a rest ih =>
    cases joined : a.join with
    | none => simpa [joinPieces, joined] using ih
    | some j =>
      have here := text_joinPiece (d := d) a j
      simp only [joinPieces] at ih ⊢
      simp [joined, here, ih]

/-- The pieces of a statement without raw text and without clauses are those of its parts. -/
theorem text_pieces {root : Alias} {joined : List Alias} (extra : p.extraJoins = []) :
    (p.pieces d {} root joined).map (·.text) = (p.lines d root joined).map marked := by
  have limit : (p.wherePiece d {}).map (·.text) =
      ((p.restriction.map fun r => .text "WHERE " :: restrictionParts d r).toList).map marked := by
    cases h : p.restriction with
    | none => simp [wherePiece, h]
    | some r =>
      simp [wherePiece, h, Fragment.append, Fragment.plain, marked, text_restrictionPiece]
  have groups : (p.groupPiece d {}).map (·.text) =
      (if p.groupBy.isEmpty then []
        else [[Segment.text ("GROUP BY " ++ joinWith ", " (p.groupBy.map (expressionText d)))]]).map
          marked := by
    cases h : p.groupBy with
    | nil => simp [groupPiece, listPiece, h]
    | cons e rest =>
      simp [groupPiece, listPiece, h, Fragment.append, Fragment.join, Fragment.plain, marked,
        Function.comp_def]
  have order : orderPiece {} = [] := rfl
  have noLimit : limitPieces {} = [] := rfl
  simp only [pieces, Plan.lines, List.map_append, limit, groups, order, noLimit, extra,
    text_joinPieces, List.map_nil, List.append_nil]
  simp [selectPiece, fromPiece, Fragment.plain, marked]

/-- A plan without raw text is assembled from its parts. -/
theorem text_assemble {a : Fragment} (extra : p.extraJoins = []) (h : p.assemble d {} = .ok a) :
    a.text = marked (p.parts d) := by
  unfold assemble at h
  unfold Plan.parts
  cases aliases : p.aliases with
  | nil =>
    rw [aliases] at h
    cases h
  | cons root joined =>
    rw [aliases] at h
    cases h
    rw [marked_between, ← text_pieces extra]
    rfl

/-! ## Reading -/

/-- Parts whose texts are inert are read as those texts with a marker for each value. -/
theorem exists_settled_marked {parts : List Segment} (h : ∀ text, .text text ∈ parts → Inert text) :
    ∃ ls, Settled (marked parts).toList ls ∧ (∀ l ∈ ls, l.isText ∨ l = .positional) ∧
      ∀ count, filled d count ls = (numbered d count parts).toList := by
  induction parts with
  | nil => exact ⟨[], .nil, by simp, fun _ => rfl⟩
  | cons part rest ih =>
    obtain ⟨later, settled, kinds, reading⟩ := ih fun text ht => h text (List.mem_cons_of_mem _ ht)
    cases part with
    | text text =>
      obtain ⟨lt, here, isText⟩ := h text List.mem_cons_self
      have noMarker : ∀ l ∈ lt, ¬ l.isMarker := fun l hl => not_isMarker_of_isText (isText l hl)
      refine ⟨lt ++ later, ?_, ?_, ?_⟩
      · rw [marked, String.toList_append]
        exact here.append settled
      · intro l hl
        exact (List.mem_append.mp hl).elim (fun ht => .inl (isText l ht)) (kinds l)
      · intro count
        have none : lt.countP (·.isMarker) = 0 := List.countP_eq_zero.mpr noMarker
        rw [filled_append, filled_eq_textOf count noMarker, none, Nat.add_zero, reading, numbered,
          String.toList_append, textOf_lexemes here.lexemes]
    | value =>
      have here : Settled "?".toList [.positional] := rfl
      refine ⟨.positional :: later, ?_, ?_, ?_⟩
      · rw [marked, String.toList_append]
        exact here.append settled
      · intro l hl
        rcases List.mem_cons.mp hl with rfl | hl
        · exact .inr rfl
        · exact kinds l hl
      · intro count
        simp [filled, Lexeme.isMarker, numbered, reading]

/-- A text between neighbours is the separator or one of theirs. -/
theorem mem_between {separator : String} {lines : List (List Segment)} {text : String}
    (h : .text text ∈ between separator lines) :
    text = separator ∨ ∃ parts ∈ lines, .text text ∈ parts := by
  induction lines with
  | nil => cases h
  | cons parts rest ih =>
    cases rest with
    | nil => exact .inr ⟨parts, List.mem_cons_self, h⟩
    | cons next more =>
      rcases List.mem_append.mp h with here | later
      · exact .inr ⟨parts, List.mem_cons_self, here⟩
      rcases List.mem_cons.mp later with same | later
      · cases same
        exact .inl rfl
      · rcases ih later with same | ⟨parts', found, here⟩
        · exact .inl same
        · exact .inr ⟨parts', List.mem_cons_of_mem _ found, here⟩

/-- The texts of a limit are inert. -/
theorem inert_restrictionParts {r : Restriction} (names : AllInert d r.column.identifiers) :
    ∀ text, .text text ∈ restrictionParts d r → Inert text := by
  intro text h
  rcases List.mem_append.mp h with front | last
  · rcases List.mem_cons.mp front with same | list
    · cases same
      exact inert_append (inert_columnText names) (inert_of_all (by decide))
    · rcases mem_between list with rfl | ⟨parts, hparts, inside⟩
      · exact inert_of_all (by decide)
      · obtain ⟨v, -, rfl⟩ := List.mem_map.mp hparts
        simp at inside
  · cases List.mem_singleton.mp last
    exact inert_of_all (by decide)

/-- An expression without raw text is written inertly. -/
theorem inert_expressionText {e : Expression} (rawless : e.texts = [])
    (names : AllInert d e.identifiers) : Inert (expressionText d e) := by
  cases e with
  | column ref => exact inert_columnText names
  | raw sql => cases rawless

/-- So is a condition. -/
theorem inert_of_rawless {c : Condition} (rawless : c.texts = [])
    (names : AllInert d c.identifiers) : Inert (conditionText d c) := by
  cases c with
  | columns pairs => exact inert_conditionText names
  | raw sql => cases rawless

/-- The texts of a join without raw text are inert. -/
theorem inert_joinParts {a : Alias} {j : Join} (joined : a.join = some j)
    (rawless : j.condition.texts = []) (names : AllInert d a.identifiers) :
    ∀ text, .text text ∈ joinParts d a j → Inert text := by
  obtain ⟨-, own⟩ := allInert_append.mp names
  obtain ⟨condition, restriction⟩ := allInert_append.mp (allInert_flatMap.mp own j (by simp [joined]))
  intro text h
  rcases List.mem_cons.mp h with same | limit
  · cases same
    exact inert_append (inert_joined names j.type) (inert_of_rawless rawless condition)
  · obtain ⟨r, hr, inside⟩ := List.mem_flatMap.mp limit
    rcases List.mem_cons.mp inside with same | inside
    · cases same
      exact inert_of_all (by decide)
    · exact inert_restrictionParts (allInert_flatMap.mp restriction r hr) text inside

/-- The select list is inert. -/
theorem inert_selectText {items : List SelectItem} (rawless : ∀ i ∈ items, i.expression.texts = [])
    (names : ∀ i ∈ items, AllInert d i.identifiers) :
    Inert ("SELECT " ++ joinWith ", " (items.map (itemText d))) := by
  apply inert_append (inert_of_all (by decide))
  apply inert_joinWith (inert_of_all (by decide))
  intro part hpart
  obtain ⟨i, hi, rfl⟩ := List.mem_map.mp hpart
  obtain ⟨expression, label⟩ := allInert_append.mp (names i hi)
  have name : Inert (d.label i.label) := label (.label i.label) List.mem_cons_self
  exact inert_append (inert_append (inert_expressionText (rawless i hi) expression)
    (inert_of_all (by decide))) name

/-- So are the terms that rows are grouped by. -/
theorem inert_groupText {terms : List Expression} (rawless : ∀ e ∈ terms, e.texts = [])
    (names : ∀ e ∈ terms, AllInert d e.identifiers) :
    Inert ("GROUP BY " ++ joinWith ", " (terms.map (expressionText d))) := by
  apply inert_append (inert_of_all (by decide))
  apply inert_joinWith (inert_of_all (by decide))
  intro part hpart
  obtain ⟨e, he, rfl⟩ := List.mem_map.mp hpart
  exact inert_expressionText (rawless e he) (names e he)

/-- The texts between the values of a plan without raw text are inert when its names are. -/
theorem inert_parts (rawless : p.texts {} = []) (names : AllInert d p.identifiers) :
    ∀ text, .text text ∈ p.parts d → Inert text := by
  -- No raw text stands in any of the places, and the names of each place are inert.
  simp only [Plan.texts, List.append_eq_nil_iff, List.flatMap_eq_nil_iff] at rawless
  obtain ⟨⟨⟨⟨⟨⟨select, aliases⟩, -⟩, -⟩, groups⟩, -⟩, -⟩ := rawless
  simp only [Plan.identifiers, allInert_append, allInert_flatMap] at names
  obtain ⟨⟨⟨selectNames, aliasNames⟩, limitNames⟩, groupNames⟩ := names
  -- A text stands in a line or breaks two of them.
  intro text h
  unfold Plan.parts at h
  split at h
  · cases h
  · next root joined placed =>
    rcases mem_between h with rfl | ⟨parts, hparts, inside⟩
    · exact inert_of_all (by decide)
    have mem : ∀ a ∈ root :: joined, a ∈ p.aliases := fun a ha => placed ▸ ha
    simp only [Plan.lines, List.mem_append, List.mem_cons, List.not_mem_nil, or_false] at hparts
    rcases hparts with ((((rfl | rfl) | join) | limit) | group)
    · cases List.mem_singleton.mp inside
      exact inert_selectText select selectNames
    · cases List.mem_singleton.mp inside
      have table := inert_tableText (aliasNames root (mem root List.mem_cons_self))
      exact inert_append (inert_of_all (by decide)) table
    · obtain ⟨a, ha, hparts⟩ := List.mem_filterMap.mp join
      obtain ⟨j, hj, rfl⟩ := Option.map_eq_some_iff.mp hparts
      have there := mem a (List.mem_cons_of_mem _ ha)
      have rawless : j.condition.texts = [] := by
        have none := aliases a there
        simpa [Alias.texts, hj] using none
      exact inert_joinParts hj rawless (aliasNames a there) text inside
    · obtain ⟨r, hr, rfl⟩ := Option.map_eq_some_iff.mp (Option.mem_toList.mp limit)
      rcases List.mem_cons.mp inside with same | inside
      · cases same
        exact inert_of_all (by decide)
      · exact inert_restrictionParts (limitNames r (Option.mem_toList.mpr hr)) text inside
    · split at group
      · cases group
      · cases List.mem_singleton.mp group
        cases List.mem_singleton.mp inside
        exact inert_groupText groups groupNames

end

/-! ## Names in the text -/

/-- A text stands somewhere in another one. -/
def Within (part whole : String) : Prop :=
  part.toList <:+: whole.toList

namespace Within

variable {part a b : String}

theorem refl (a : String) : Within a a := List.infix_rfl

theorem trans {c : String} (hab : Within a b) (hbc : Within b c) : Within a c :=
  List.IsInfix.trans hab hbc

theorem left (h : Within part a) : Within part (a ++ b) := by
  rw [Within, String.toList_append]
  exact List.IsInfix.trans h (List.prefix_append _ _).isInfix

theorem right (h : Within part b) : Within part (a ++ b) := by
  rw [Within, String.toList_append]
  exact List.IsInfix.trans h (List.suffix_append _ _).isInfix

theorem joinWith {separator : String} {parts : List String} (h : part ∈ parts) :
    Within part (joinWith separator parts) := by
  induction parts with
  | nil => cases h
  | cons first rest ih =>
    cases rest with
    | nil =>
      obtain rfl := List.mem_singleton.mp h
      exact refl part
    | cons next more =>
      rcases List.mem_cons.mp h with rfl | later
      · exact (refl part).left.left
      · exact (ih later).right

/-- A text among parts stands in their text. -/
theorem numbered {d : Dialect} {parts : List Segment} (h : .text part ∈ parts) (count : Nat) :
    Within part (numbered d count parts) := by
  induction parts generalizing count with
  | nil => cases h
  | cons first rest ih =>
    rcases List.mem_cons.mp h with rfl | later
    · exact (refl part).left
    · cases first with
      | text text => exact (ih later count).right
      | value => exact (ih later (count + 1)).right

end Within

section

variable {p : Plan} {d : Dialect}

theorem within_columnText {r : ColumnRef} {i : Identifier} (h : i ∈ r.identifiers) :
    Within (i.text d) (columnText d r) := by
  rcases List.mem_cons.mp h with rfl | h
  · exact (Within.refl _).left.left
  · obtain rfl := List.mem_singleton.mp h
    exact (Within.refl _).right

theorem within_expressionText {e : Expression} {i : Identifier} (h : i ∈ e.identifiers) :
    Within (i.text d) (expressionText d e) := by
  cases e with
  | column ref => exact within_columnText h
  | raw sql => cases h

theorem within_conditionText {c : Condition} {i : Identifier} (h : i ∈ c.identifiers) :
    Within (i.text d) (conditionText d c) := by
  cases c with
  | columns pairs =>
    obtain ⟨pair, hpair, hi⟩ := List.mem_flatMap.mp h
    have compared : Within (i.text d) (columnText d pair.1 ++ " = " ++ columnText d pair.2) :=
      (List.mem_append.mp hi).elim (fun hl => (within_columnText hl).left.left)
        fun hr => (within_columnText hr).right
    exact compared.trans (Within.joinWith (List.mem_map_of_mem hpair))
  | raw sql => cases h

/-- A name of a limit stands in one of its texts. -/
theorem within_restrictionParts {r : Restriction} {i : Identifier}
    (h : i ∈ r.column.identifiers) :
    ∃ text, .text text ∈ restrictionParts d r ∧ Within (i.text d) text :=
  ⟨_, List.mem_append_left _ List.mem_cons_self, (within_columnText h).left⟩

theorem within_joinParts {a : Alias} {j : Join} (joined : a.join = some j) {i : Identifier}
    (h : i ∈ a.identifiers) : ∃ text, .text text ∈ joinParts d a j ∧ Within (i.text d) text := by
  rcases List.mem_append.mp h with own | join
  · have table : Within (i.text d) (tableText d a) := by
      rcases List.mem_cons.mp own with rfl | own
      · exact (Within.refl _).left.left
      · obtain rfl := List.mem_singleton.mp own
        exact (Within.refl _).right
    exact ⟨_, List.mem_cons_self, table.right.left.left⟩
  · rw [joined] at join
    rcases List.mem_append.mp (by simpa using join : i ∈ j.identifiers) with compared | limited
    · exact ⟨_, List.mem_cons_self, (within_conditionText compared).right⟩
    · obtain ⟨r, hr, hi⟩ := List.mem_flatMap.mp limited
      obtain ⟨text, inside, within⟩ := within_restrictionParts (d := d) hi
      refine ⟨text, List.mem_cons_of_mem _ (List.mem_flatMap.mpr ⟨r, hr, ?_⟩), within⟩
      exact List.mem_cons_of_mem _ inside

/-- The parts of a list stand between its neighbours. -/
theorem mem_between_of_mem {separator : String} {lines : List (List Segment)} {parts : List Segment}
    {part : Segment} (h : parts ∈ lines) (hp : part ∈ parts) : part ∈ between separator lines := by
  induction lines with
  | nil => cases h
  | cons first rest ih =>
    cases rest with
    | nil =>
      obtain rfl := List.mem_singleton.mp h
      exact hp
    | cons next more =>
      rcases List.mem_cons.mp h with rfl | later
      · exact List.mem_append_left _ hp
      · exact List.mem_append_right _ (List.mem_cons_of_mem _ (ih later))

/-- Every name of a plan stands in one of the texts of its statement. -/
theorem exists_part_of_mem {root : Alias} {joined : List Alias} (aliases : p.aliases = root :: joined)
    (first : root.join = none) (joins : ∀ a ∈ joined, a.join.isSome) {i : Identifier}
    (h : i ∈ p.identifiers) : ∃ text, .text text ∈ p.parts d ∧ Within (i.text d) text := by
  -- It is enough to find the line.
  suffices line : ∃ parts ∈ p.lines d root joined, ∃ text, .text text ∈ parts ∧
      Within (i.text d) text by
    obtain ⟨parts, hparts, text, inside, within⟩ := line
    refine ⟨text, ?_, within⟩
    rw [Plan.parts, aliases]
    exact mem_between_of_mem hparts inside
  unfold Plan.lines
  simp only [Plan.identifiers, List.mem_append, List.mem_flatMap] at h
  -- A name is selected, belongs to a table, to the limit on the root, or to the grouping.
  rcases h with ((⟨item, hitem, hi⟩ | ⟨a, ha, hi⟩) | ⟨r, hr, hi⟩) | ⟨e, he, hi⟩
  · have written : Within (i.text d) (itemText d item) := by
      rcases List.mem_append.mp hi with expression | label
      · exact (within_expressionText expression).left.left
      · obtain rfl := List.mem_singleton.mp label
        exact (Within.refl _).right
    have within : Within (i.text d) (joinWith ", " (p.select.map (itemText d))) :=
      written.trans (Within.joinWith (List.mem_map_of_mem hitem))
    exact ⟨[.text ("SELECT " ++ joinWith ", " (p.select.map (itemText d)))], by simp, _,
      List.mem_singleton_self _, within.right⟩
  · rw [aliases] at ha
    rcases List.mem_cons.mp ha with rfl | later
    · have own : Within (i.text d) (tableText d a) := by
        simp only [Alias.identifiers, first, Option.toList_none, List.flatMap_nil, List.append_nil] at hi
        rcases List.mem_cons.mp hi with rfl | hi
        · exact (Within.refl _).left.left
        · obtain rfl := List.mem_singleton.mp hi
          exact (Within.refl _).right
      exact ⟨[.text ("FROM " ++ tableText d a)], by simp, _, List.mem_singleton_self _, own.right⟩
    · obtain ⟨j, hj⟩ := Option.isSome_iff_exists.mp (joins a later)
      obtain ⟨text, inside, within⟩ := within_joinParts (d := d) hj hi
      refine ⟨joinParts d a j, ?_, text, inside, within⟩
      simp only [List.mem_append, List.mem_filterMap]
      exact .inl (.inl (.inr ⟨a, later, by simp [hj]⟩))
  · obtain ⟨text, inside, within⟩ := within_restrictionParts (d := d) hi
    have limit : p.restriction = some r := by simpa using hr
    exact ⟨.text "WHERE " :: restrictionParts d r, by simp [limit], text,
      List.mem_cons_of_mem _ inside, within⟩
  · have within : Within (i.text d) (joinWith ", " (p.groupBy.map (expressionText d))) :=
      (within_expressionText hi).trans (Within.joinWith (List.mem_map_of_mem he))
    have some : p.groupBy ≠ [] := List.ne_nil_of_mem he
    exact ⟨[.text ("GROUP BY " ++ joinWith ", " (p.groupBy.map (expressionText d)))], by simp [some], _,
      List.mem_singleton_self _, within.right⟩

end

/-- Without raw texts the values are those that tables are limited to. -/
theorem values_of_rawless {p : Plan} (rawless : p.texts {} = []) : p.values {} = p.limits := by
  simp only [Plan.texts, List.append_eq_nil_iff, List.flatMap_eq_nil_iff] at rawless
  obtain ⟨⟨⟨⟨⟨⟨select, aliases⟩, extra⟩, -⟩, groups⟩, -⟩, -⟩ := rawless
  have noSelect : p.select.flatMap (·.expression.values []) = [] := by
    rw [List.flatMap_eq_nil_iff]
    intro item hitem
    simp [Expression.values, select item hitem]
  have noGroup : p.groupBy.flatMap (·.values []) = [] := by
    rw [List.flatMap_eq_nil_iff]
    intro e he
    simp [Expression.values, groups e he]
  have noExtra : p.extraJoins = [] := List.map_eq_nil_iff.mp extra
  have joins : p.aliases.tail.flatMap (·.values []) = p.aliases.tail.flatMap fun a =>
      a.join.toList.flatMap fun j => j.restriction.toList.flatMap (·.bound) := by
    apply List.flatMap_congr
    intro a ha
    apply List.flatMap_congr
    intro j hj
    have none : j.condition.texts = [] :=
      List.flatMap_eq_nil_iff.mp (aliases a (List.mem_of_mem_tail ha)) j hj
    simp [Join.values, none]
  simp [Plan.values, Plan.limits, noSelect, noGroup, noExtra, joins]

/-- A plan without raw text whose names are inert is rendered to its parts. -/
theorem render_parts {s : Schema} {name : String} {p : Plan}
    (built : Plan.build s name = .ok p) {d : Dialect} (rawless : p.texts {} = [])
    (names : AllInert d p.identifiers) :
    p.render d {} = .ok ⟨numbered d 0 (p.parts d), p.limits⟩ := by
  obtain ⟨a, ls, assembled, reads, values⟩ := exists_reads_of_build built names
    (c := {}) (by simp [rawless])
  have extra : p.extraJoins = [] := by
    simp only [Plan.texts, List.append_eq_nil_iff] at rawless
    simpa using rawless.1.1.1.1.2
  obtain ⟨ls', settled, kinds, reading⟩ := exists_settled_marked (d := d) (inert_parts rawless names)
  obtain rfl : ls = ls' := by
    have read := reads.read
    rw [text_assemble extra assembled, settled.lexemes] at read
    exact (Except.ok.inj read).symm
  have noReference : ∀ n, .reference n ∉ ls := by
    intro n hn
    rcases kinds _ hn with text | marker
    · cases text
    · cases marker
  have rendered : p.render d {} = .ok ⟨String.ofList (filled d 0 (spelled (p.targetChars d) ls)), _⟩ :=
    render_of_reads assembled reads fun n hn => absurd hn (noReference n)
  have same : spelled (p.targetChars d) ls = ls := by
    rw [spelled, replacedLexemes, replaced_eq_flatMap noReference, List.flatMap_singleton']
  rw [rendered, same, reading, String.ofList_toList, ← reads.values, values, values_of_rawless rawless]

/-- The first table of a plan that is built has no join, and every other one has one. -/
theorem joins_of_build {s : Schema} {name : String} {p : Plan}
    (built : Plan.build s name = .ok p) : ∃ root joined, p.aliases = root :: joined ∧
      root.join = none ∧ ∀ a ∈ joined, a.join.isSome := by
  obtain ⟨root, joined, aliases⟩ := List.exists_cons_of_ne_nil (aliases_ne_nil_of_build built)
  obtain ⟨top, draft, rfl, orderly⟩ := orderly_of_build built
  have ordered := orderly.ordered
  have aliases' : draft.aliases = root :: joined := aliases
  rw [aliases'] at ordered
  refine ⟨root, joined, aliases, ?_, ?_⟩
  · -- A join of the first table would hang off a table before it.
    cases h : root.join with
    | none => rfl
    | some j =>
      have follows := ordered.1
      unfold Alias.Follows at follows
      rw [h] at follows
      exact absurd follows.parent List.not_mem_nil
  · intro a ha
    obtain ⟨i, hi⟩ := List.mem_iff_getElem?.mp ha
    have follows := ordered.2.follows hi
    unfold Alias.Follows at follows
    cases h : a.join with
    | none =>
      rw [h] at follows
      simp at follows
    | some j => rfl

/-- **Names stand in a statement as the dialect writes them.** A plan without raw text whose names
are inert is rendered to its parts, among which every name stands, and its values are those that its
tables are limited to. -/
theorem Plan.render_verbatim {s : Schema} {name : String} {p : Plan}
    (built : Plan.build s name = .ok p) {d : Dialect} (rawless : p.texts {} = [])
    (names : AllInert d p.identifiers) :
    p.render d {} = .ok ⟨numbered d 0 (p.parts d), p.limits⟩ ∧
      ∀ i ∈ p.identifiers, Within (i.text d) (numbered d 0 (p.parts d)) := by
  obtain ⟨root, joined, aliases, first, joins⟩ := joins_of_build built
  refine ⟨render_parts built rawless names, ?_⟩
  intro i hi
  obtain ⟨text, inside, within⟩ := exists_part_of_mem aliases first joins hi
  exact within.trans (Within.numbered inside 0)

/-- Vehicles of several kinds, with names that need their quotes. -/
def yard : Schema where
  sources := [⟨.runtime, [
    { name := "Vehicle", table := some ⟨none, "my vehicles"⟩, discriminator := some "kind of",
      subclasses := ["Truck"],
      fields := [
        { name := "plate", type := .value .text,
          attrs := { id := some true, column := some "plate \x22no.\x22" } }] },
    { name := "Truck", superclass := some "Vehicle", discriminatorValue := some "truck?" }]⟩]

theorem render_verbatim_yard : ∃ p, Plan.build yard "Truck" = .ok p ∧
    numbered .postgres 0 (p.parts .postgres) =
      "SELECT \x22my vehicles\x22.\x22kind of\x22 AS \x22my vehicles.kind of\x22, " ++
      "\x22my vehicles\x22.\x22plate \x22\x22no.\x22\x22\x22 AS \x22my vehicles.plate\x22\n" ++
      "FROM \x22my vehicles\x22 AS \x22my vehicles\x22\n" ++
      "WHERE \x22my vehicles\x22.\x22kind of\x22 IN ($1)" ∧
    p.limits.map (·.text?) = [some "truck?"] ∧
    p.render .postgres {} = .ok ⟨numbered .postgres 0 (p.parts .postgres), p.limits⟩ ∧
    ∀ i ∈ p.identifiers, Within (i.text .postgres) (numbered .postgres 0 (p.parts .postgres)) := by
  obtain ⟨p, built, found⟩ := ok_of_map (x := Plan.build yard "Truck")
    (f := fun p => (numbered .postgres 0 (p.parts .postgres), p.limits.map (·.text?),
      (p.texts {}).isEmpty, decide (AllInert .postgres p.identifiers)))
    (b := ("SELECT \x22my vehicles\x22.\x22kind of\x22 AS \x22my vehicles.kind of\x22, " ++
      "\x22my vehicles\x22.\x22plate \x22\x22no.\x22\x22\x22 AS \x22my vehicles.plate\x22\n" ++
      "FROM \x22my vehicles\x22 AS \x22my vehicles\x22\n" ++
      "WHERE \x22my vehicles\x22.\x22kind of\x22 IN ($1)", [some "truck?"], true, true))
    (by decide +kernel)
  simp only [Prod.mk.injEq, List.isEmpty_iff, decide_eq_true_eq] at found
  obtain ⟨text, values, rawless, inert⟩ := found
  exact ⟨p, built, text, values, Plan.render_verbatim built rawless inert⟩

/-- A name with a question mark is not inert: its quotes do not keep the mark from being taken for a marker. -/
example : ¬Inert (Dialect.postgres.quoted "ok?") := by
  decide +kernel

end Orm
