import Orm.Proofs.Plan.Limits
import Orm.Proofs.Statement.Verbatim

/-!
# `Proofs.Statement.Lines` — the lines of a statement that limit tables

A statement is a list of lines. Where the rows of a table are limited, there is a line with the limit.
The limit on the first table is the first of the conditions on rows, in parentheses if a caller has
conditions too; that on every other table ends the condition of its join. Such a line is cut out of the
statement, and what stands in front of the limit, the limit and what stands behind it are read one
after the other.

## Contents
- **Cuts.** `following`, `join_cut`.
- **Lines.** `limitHead`, `limitFoot`, `limitLine`, `exists_pieces_of_limit`, `exists_cut_of_limit`.
- **Reading.** `filled_spelled_append`, `exists_reads_restriction`, `exists_reads_following`.
- **Leading.** `Fragment.Leads`, `exists_leads_limitHead`, `bindable_limitFoot`.
- **Rendering.** `Plan.Writes`, `Plan.HasLimit`, `exists_reads_cut`, `exists_limit_of_build`.
-/

namespace Orm

open Text Sql Plan Schema

/-! ## Cuts -/

/-- The lines behind a line. -/
def following : List Fragment → Fragment
  | [] => .plain ""
  | f :: rest => (Fragment.plain "\n").append (.join "\n" (f :: rest))

theorem joinWith_append (separator : String) {before after : List String} (hb : before ≠ [])
    (ha : after ≠ []) : joinWith separator (before ++ after) =
      joinWith separator before ++ separator ++ joinWith separator after := by
  induction before with
  | nil => exact absurd rfl hb
  | cons first more ih =>
    obtain ⟨next, rest, rfl⟩ := List.exists_cons_of_ne_nil ha
    cases more with
    | nil => rfl
    | cons second more =>
      have later := ih (by simp)
      simp only [List.cons_append] at later ⊢
      simp only [joinWith, later, String.append_assoc]

/-- A line of several is cut out. -/
theorem join_cut {before : List Fragment} (hb : before ≠ []) (f : Fragment) (after : List Fragment) :
    Fragment.join "\n" (before ++ f :: after) =
      (Fragment.join "\n" before).append
        ((Fragment.plain "\n").append (f.append (following after))) := by
  have behind : joinWith "\n" (f.text :: after.map (·.text)) = f.text ++ (following after).text := by
    cases after with
    | nil => simp [joinWith, following, Fragment.plain]
    | cons next rest =>
      simp [joinWith, following, Fragment.plain, Fragment.append, Fragment.join, String.append_assoc]
  have params : (following after).params = after.flatMap (·.params) := by
    cases after <;> simp [following, Fragment.plain, Fragment.append, Fragment.join]
  have some : before.map (·.text) ≠ [] := mt List.map_eq_nil_iff.mp hb
  have texts := joinWith_append "\n" some (List.cons_ne_nil f.text (after.map (·.text)))
  simp only [Fragment.join, Fragment.append, Fragment.plain, List.map_append, List.map_cons, texts,
    behind, List.flatMap_append, List.flatMap_cons, params, List.nil_append, String.append_assoc]

/-! ## Lines -/

/-- What a line of a statement says in front of the limit on the rows of a table: a join under its
condition, or that conditions follow. Where a caller has conditions too, each stands in parentheses. -/
def limitHead (d : Dialect) (c : Clauses) (a : Alias) : String :=
  match a.join with
  | some j =>
    j.type.keyword ++ " " ++ tableText d a ++ " ON " ++ conditionText d j.condition ++ " AND "
  | none =>
    match c.filters.filter (!·.isBlank) with
    | [] => "WHERE "
    | _ :: _ => "WHERE ("

/-- What the line says behind the limit: the conditions of the caller, if they follow at all. -/
def limitFoot (c : Clauses) (a : Alias) : Fragment :=
  match a.join, c.filters.filter (!·.isBlank) with
  | none, condition :: more =>
    (Fragment.plain ") AND ").append (.join " AND " ((condition :: more).map .parenthesized))
  | _, _ => .plain ""

/-- The line of a statement that limits the rows of a table. -/
def limitLine (d : Dialect) (c : Clauses) (a : Alias) (r : Restriction) : Fragment :=
  (Fragment.plain (limitHead d c a)).append ((restrictionPiece d r).append (limitFoot c a))

section

variable {p : Plan} {d : Dialect} {c : Clauses} {a : Alias} {r : Restriction}

theorem joinPiece_eq_limitLine {j : Join} (joined : a.join = some j)
    (limited : j.restriction = some r) : joinPiece d a j = limitLine d c a r := by
  simp [joinPiece, limitLine, limitHead, limitFoot, joined, limited, Fragment.append, Fragment.plain,
    String.append_assoc]

theorem wherePiece_eq_limitLine (first : a.join = none) (limited : p.restriction = some r) :
    p.wherePiece d c = [limitLine d c a r] := by
  cases conditions : c.filters.filter (!·.isBlank) with
  | nil =>
    simp [wherePiece, limitLine, limitHead, limitFoot, first, limited, conditions, Fragment.append,
      Fragment.plain]
  | cons condition more =>
    simp [wherePiece, limitLine, limitHead, limitFoot, first, limited, conditions, Fragment.append,
      Fragment.plain, Fragment.join, Fragment.parenthesized, Fragment.mapText, joinWith,
      String.append_assoc]
    exact String.append_assoc.symm

/-- The line of a join stands behind those of the select list and of the first table. -/
theorem exists_pieces_of_join (root : Alias) {others : List Alias} {a : Alias} (ha : a ∈ others)
    {j : Join} (joined : a.join = some j) : ∃ before after, before ≠ [] ∧
      p.pieces d c root others = before ++ joinPiece d a j :: after := by
  obtain ⟨front, back, rfl⟩ := List.append_of_mem ha
  refine ⟨[p.selectPiece d, fromPiece d root] ++ joinPieces d front, joinPieces d back ++
    p.extraJoins.map .plain ++ p.wherePiece d c ++ p.groupPiece d c ++ orderPiece c ++ limitPieces c,
    by simp, ?_⟩
  simp [Plan.pieces, joinPieces, joined]

/-- The line that limits a table stands behind those of the select list and of the first table. -/
theorem exists_pieces_of_limit {root : Alias} {others : List Alias} (first : root.join = none)
    (ha : a ∈ root :: others) (joins : ∀ b ∈ others, b.join.isSome) (limit : p.limitOf a = some r) :
    ∃ before after, before ≠ [] ∧
      p.pieces d c root others = before ++ limitLine d c a r :: after := by
  unfold Plan.limitOf at limit
  rcases List.mem_cons.mp ha with rfl | later
  · rw [first] at limit
    refine ⟨[p.selectPiece d, fromPiece d a] ++ joinPieces d others ++ p.extraJoins.map .plain,
      p.groupPiece d c ++ orderPiece c ++ limitPieces c, by simp, ?_⟩
    simp [Plan.pieces, wherePiece_eq_limitLine first limit]
  · obtain ⟨j, joined⟩ := Option.isSome_iff_exists.mp (joins a later)
    rw [joined] at limit
    rw [← joinPiece_eq_limitLine joined limit]
    exact exists_pieces_of_join root later joined

/-- **A statement of a plan that is built has the line that limits a table.** -/
theorem exists_cut_of_limit {s : Schema} {name : String} (built : Plan.build s name = .ok p)
    (ha : a ∈ p.aliases) (limit : p.limitOf a = some r) : ∃ before after,
      p.assemble d c = .ok ((Fragment.join "\n" before).append
        ((Fragment.plain "\n").append ((limitLine d c a r).append (following after)))) ∧
      ∀ f ∈ before ++ after, ∃ root others, p.aliases = root :: others ∧
        f ∈ p.pieces d c root others := by
  obtain ⟨root, others, aliases, first, joins⟩ := joins_of_build built
  obtain ⟨before, after, some, pieces⟩ :=
    exists_pieces_of_limit (d := d) (c := c) first (aliases ▸ ha) joins limit
  refine ⟨before, after, ?_, fun f hf => ⟨root, others, aliases, ?_⟩⟩
  · unfold assemble
    rw [aliases]
    show Except.ok (Fragment.join "\n" (p.pieces d c root others)) = _
    rw [pieces, join_cut some]
  · rw [pieces]
    rcases List.mem_append.mp hf with front | back
    · exact List.mem_append_left _ front
    · exact List.mem_append_right _ (List.mem_cons_of_mem _ back)

end

/-! ## Reading -/

section

variable {p : Plan} {d : Dialect} {named : List (String × Value)}

/-- Text is written as it is. -/
theorem filled_spelled_of_isText {ls : List Lexeme} (isText : ∀ l ∈ ls, l.isText)
    (f : List Char → List Char) (count : Nat) : filled d count (spelled f ls) = textOf ls := by
  have none : ∀ n, .reference n ∉ ls := fun n hn => nomatch isText _ hn
  rw [spelled, replacedLexemes, replaced_eq_flatMap none, List.flatMap_singleton']
  exact filled_eq_textOf count fun l hl => not_isMarker_of_isText (isText l hl)

theorem markerValues_of_isText_nil {ls : List Lexeme} (isText : ∀ l ∈ ls, l.isText) :
    markerValues named [] ls = [] := by
  rw [← List.append_nil ls, markerValues_of_isText isText]
  rfl

/-- Behind lexemes that are bound, the markers are numbered on from the number of their values. -/
theorem filled_spelled_append {positional : List Value} {la : List Lexeme}
    (h : Binds named positional la) (f : List Char → List Char) (count : Nat) (lb : List Lexeme) :
    filled d count (spelled f (la ++ lb)) = filled d count (spelled f la) ++
      filled d (count + (markerValues named positional la).length) (spelled f lb) := by
  rw [spelled_append, filled_append, ← markerValues_spelled (f := f),
    length_markerValues (binds_spelled_iff.mpr h)]

/-- A limit is read on its own. -/
theorem exists_reads_restriction {r : Restriction} (names : AllInert d r.column.identifiers) :
    ∃ ls, (restrictionPiece d r).Reads p named ls ∧ markerValues named r.bound ls = r.bound ∧
      ∀ f count, filled d count (spelled f ls) = (numbered d count (restrictionParts d r)).toList := by
  have given : (restrictionPiece d r).Gives p named r.bound := gives_restriction names
  obtain ⟨ll, reads⟩ := given.bindable
  obtain ⟨ls, settled, kinds, reading⟩ :=
    exists_settled_marked (d := d) (inert_restrictionParts names)
  obtain rfl : ls = ll := by
    have read := reads.read
    rw [text_restrictionPiece, settled.lexemes] at read
    exact Except.ok.inj read
  have none : ∀ n, .reference n ∉ ls := by
    intro n hn
    rcases kinds _ hn with text | marker
    · cases text
    · cases marker
  refine ⟨ls, reads, reads.values.symm.trans given.values, fun f count => ?_⟩
  rw [spelled, replacedLexemes, replaced_eq_flatMap none, List.flatMap_singleton']
  exact reading count

/-- Lines are read one after the other. -/
theorem exists_reads_lines {fs : List Fragment} (h : ∀ f ∈ fs, f.Bindable p named) :
    ∃ ls, (Fragment.join "\n" fs).Reads p named ls :=
  (gives_join (inert_of_all (by decide)) (by decide) (by decide) ⟨h, rfl⟩).bindable

/-- What stands behind a line can be read, and starts with a break or is nothing. -/
theorem exists_reads_following {fs : List Fragment} (h : ∀ f ∈ fs, f.Bindable p named) :
    ∃ ls, (following fs).Reads p named ls ∧ StartsApart (following fs).text.toList ∧
      ∀ f count, ∃ rest, filled d count (spelled f ls) = rest.toList ∧
        (rest = "" ∨ ∃ next, rest = "\n" ++ next) := by
  cases fs with
  | nil =>
    obtain ⟨ls, reads⟩ := (gives_empty (p := p)).bindable
    obtain rfl : [] = ls := Except.ok.inj reads.read
    exact ⟨[], reads, by decide, fun f count => ⟨"", rfl, .inl rfl⟩⟩
  | cons first rest =>
    obtain ⟨ll, reads⟩ := exists_reads_lines h
    have newline : Settled "\n".toList [.char '\n'] := rfl
    refine ⟨Lexeme.char '\n' :: ll, reads.behind newline (by decide), ?_, fun f count => ?_⟩
    · show StartsApart ("\n" ++ _).toList
      rw [String.toList_append]
      exact startsApart_append (by decide) (by decide)
    · refine ⟨"\n" ++ String.ofList (filled d count (spelled f ll)), ?_, .inr ⟨_, rfl⟩⟩
      rw [String.toList_append]
      exact (filled_chars count ['\n'] _).trans (congrArg _ String.toList_ofList.symm)

end

/-! ## Leading -/

/-- A fragment is read to its end, whatever stands behind it. -/
def Sql.Fragment.Leads (p : Plan) (named : List (String × Value)) (f : Fragment)
    (lf : List Lexeme) : Prop :=
  ∀ {g : Fragment} {lg : List Lexeme}, g.Reads p named lg → (f.append g).Reads p named (lf ++ lg)

section

variable {p : Plan} {d : Dialect} {named : List (String × Value)}

theorem Sql.Fragment.append_empty (f : Fragment) : f.append (.plain "") = f := by
  simp [Fragment.append, Fragment.plain]

theorem Sql.Fragment.append_assoc (f g h : Fragment) :
    (f.append g).append h = f.append (g.append h) := by
  simp [Fragment.append, String.append_assoc]

theorem reads_empty : (Fragment.plain "").Reads p named [] :=
  ⟨rfl, Binds.nil, fun _ h => nomatch h⟩

theorem Sql.Fragment.Leads.reads {f : Fragment} {lf : List Lexeme} (h : f.Leads p named lf) :
    f.Reads p named lf := by
  have whole := h reads_empty
  rwa [Fragment.append_empty, List.append_nil] at whole

theorem exists_leads_of_inert {text : String} (inert : Inert text) :
    ∃ lt, (Fragment.plain text).Leads p named lt := by
  obtain ⟨lt, settled, isText⟩ := inert
  exact ⟨lt, fun reads => reads.behind settled isText⟩

/-- Behind an inert text that ends what stands in front of it, anything may stand. -/
theorem exists_leads_of_bindable {f : Fragment} (bindable : f.Bindable p named) {text : String}
    (inert : Inert text) (some : text.toList ≠ []) (apart : StartsApart text.toList) :
    ∃ lf, (f.append (.plain text)).Leads p named lf := by
  obtain ⟨lf, reads⟩ := bindable
  obtain ⟨lt, settled, isText⟩ := inert
  refine ⟨lf ++ lt, fun {g lg} behind => ?_⟩
  have whole := reads.append (behind.behind settled isText) (by
    rw [Fragment.append, String.toList_append]
    exact startsApart_append some apart)
  rwa [← List.append_assoc, ← Fragment.append_assoc] at whole

/-- The head of a limit on the first table is a word. -/
theorem inert_limitHead_of_first {a : Alias} (first : a.join = none) (d : Dialect) (c : Clauses) :
    Inert (limitHead d c a) := by
  unfold limitHead
  rw [first]
  dsimp only
  cases c.filters.filter (!·.isBlank) with
  | nil =>
    have word : Inert "WHERE " := inert_of_all (by decide)
    exact word
  | cons condition more =>
    have word : Inert "WHERE (" := inert_of_all (by decide)
    exact word

/-- Without a raw text the head of a limit is inert. -/
theorem inert_limitHead {a : Alias} (names : AllInert d a.identifiers) (rawless : a.texts = [])
    (c : Clauses) : Inert (limitHead d c a) := by
  cases joined : a.join with
  | none => exact inert_limitHead_of_first joined d c
  | some j =>
    unfold limitHead
    rw [joined]
    obtain ⟨-, own⟩ := allInert_append.mp names
    have join : AllInert d j.identifiers := allInert_flatMap.mp own j (by simp [joined])
    have compared : Inert (conditionText d j.condition) :=
      inert_of_rawless (by simpa [Alias.texts, joined] using rawless) (allInert_append.mp join).1
    exact inert_append (inert_append (inert_joined names j.type) compared) (inert_of_all (by decide))

/-- The head of a limit is such a text, or ends with one. -/
theorem exists_leads_limitHead {a : Alias} (names : AllInert d a.identifiers)
    (texts : ∀ f ∈ a.texts, f.Bindable p named) (c : Clauses) :
    ∃ lh, (Fragment.plain (limitHead d c a)).Leads p named lh := by
  cases joined : a.join with
  | none => exact exists_leads_of_inert (inert_limitHead_of_first joined d c)
  | some j =>
    unfold limitHead
    rw [joined]
    obtain ⟨-, own⟩ := allInert_append.mp names
    have join : AllInert d j.identifiers := allInert_flatMap.mp own j (by simp [joined])
    have given : (Fragment.plain (conditionText d j.condition)).Gives p named _ :=
      gives_condition (allInert_append.mp join).1 fun f hf =>
        texts f (by simpa [Alias.texts, joined] using hf)
    have word : Inert " AND " := inert_of_all (by decide)
    have leads := exists_leads_of_bindable (given.behind (inert_joined names j.type)).bindable word
      (by decide) (by decide)
    simpa [Fragment.append, Fragment.plain, String.append_assoc] using leads

/-- The names that a limit is written with are among those of the table. -/
theorem allInert_of_restriction {a : Alias} (names : AllInert d a.identifiers) {j : Join}
    (joined : a.join = some j) {r : Restriction} (limited : j.restriction = some r) :
    AllInert d r.column.identifiers := by
  obtain ⟨-, joins⟩ := allInert_append.mp names
  have ofJoin := allInert_flatMap.mp joins j (by simp [joined])
  exact allInert_flatMap.mp (allInert_append.mp ofJoin).2 r (by simp [limited])

theorem AllInert.of_mem {a : Alias} (names : AllInert d p.identifiers) (ha : a ∈ p.aliases) :
    AllInert d a.identifiers :=
  allInert_flatMap.mp (allInert_append.mp (allInert_append.mp (allInert_append.mp names).1).1).2 a ha

/-- The column of a limit is written inertly where all names of the plan are. -/
theorem allInert_of_limit {a : Alias} (names : AllInert d p.identifiers) (ha : a ∈ p.aliases)
    {r : Restriction} (limit : p.limitOf a = some r) : AllInert d r.column.identifiers := by
  unfold Plan.limitOf at limit
  cases joined : a.join with
  | none =>
    rw [joined] at limit
    obtain ⟨-, first⟩ := allInert_append.mp (allInert_append.mp names).1
    exact allInert_flatMap.mp first r (Option.mem_toList.mpr limit)
  | some j =>
    rw [joined] at limit
    exact allInert_of_restriction (names.of_mem ha) joined limit

/-- What the caller's conditions give stands behind a limit on the first table. -/
theorem bindable_limitFoot {c : Clauses} (texts : ∀ f ∈ c.filters, f.Bindable p named) (a : Alias) :
    (limitFoot c a).Bindable p named ∧ StartsApart (limitFoot c a).text.toList := by
  unfold limitFoot
  split
  next condition more _ kept =>
    have each : Fragment.AllGive p named ((condition :: more).map .parenthesized) _ :=
      .map fun f hf => gives_parenthesized (texts f (List.mem_of_mem_filter (kept ▸ hf))).gives
    have joined : (Fragment.join " AND " ((condition :: more).map .parenthesized)).Gives p named _ :=
      gives_join (inert_of_all (by decide)) (by decide) (by decide) each
    refine ⟨(joined.behind (inert_of_all (by decide))).bindable, ?_⟩
    rw [Fragment.append, String.toList_append]
    exact startsApart_append (by decide) (by decide)
  next => exact ⟨⟨[], reads_empty⟩, by decide⟩

end

/-! ## Rendering -/

/-- A statement has the raw texts of its tables. -/
theorem mem_texts_of_table {p : Plan} (c : Clauses) {a : Alias} (ha : a ∈ p.aliases) {f : Fragment}
    (hf : f ∈ a.texts) : f ∈ p.texts c := by
  simp only [Plan.texts, List.mem_append, List.mem_flatMap]
  exact .inl (.inl (.inl (.inl (.inl (.inr ⟨a, ha, hf⟩)))))

theorem texts_of_rawless {p : Plan} {c : Clauses} (rawless : p.texts c = []) {a : Alias}
    (ha : a ∈ p.aliases) : a.texts = [] :=
  List.eq_nil_iff_forall_not_mem.mpr fun _ hf =>
    List.not_mem_nil (rawless ▸ mem_texts_of_table c ha hf)

/-- A text is written with its references replaced and its markers numbered from some number on. -/
def Plan.Writes (p : Plan) (d : Dialect) (text written : String) : Prop :=
  ∃ count ls, lexemes text.toList = .ok ls ∧
    written.toList = filled d count (spelled (p.targetChars d) ls)

/-- An inert text is written as it is. -/
theorem Plan.Writes.eq_of_inert {p : Plan} {d : Dialect} {text written : String}
    (h : p.Writes d text written) (inert : Inert text) : written = text := by
  obtain ⟨count, ls, lexed, spelling⟩ := h
  obtain ⟨lt, settled, isText⟩ := inert
  cases settled.lexemes.symm.trans lexed
  rw [filled_spelled_of_isText isText, textOf_lexemes settled.lexemes] at spelling
  exact String.toList_inj.mp spelling

/-- Between inert texts, the latter of which starts apart, a text is written as it is on its own. -/
theorem Plan.Writes.inside {p : Plan} {d : Dialect} {named : List (String × Value)}
    {before text after written : String} (h : p.Writes d (before ++ text ++ after) written)
    (front : Inert before) (bindable : (Fragment.plain text).Bindable p named) (back : Inert after)
    (apart : StartsApart after.toList) :
    ∃ own, written = before ++ own ++ after ∧ p.Writes d text own := by
  obtain ⟨count, ls, lexed, spelling⟩ := h
  obtain ⟨lb, settledFront, isFront⟩ := front
  obtain ⟨lt, reads⟩ := bindable
  obtain ⟨la, settledBack, isBack⟩ := back
  have frontBinds : Binds named [] lb := binds_of_isText isFront
  have whole : lexemes (before ++ text ++ after).toList = .ok (lb ++ (lt ++ la)) := by
    rw [String.append_assoc, String.toList_append, String.toList_append]
    exact settledFront.lexemes_append (lexemes_append reads.read settledBack.lexemes apart)
  cases lexed.symm.trans whole
  rw [filled_spelled_append frontBinds, filled_spelled_append reads.binds,
    filled_spelled_of_isText isFront, filled_spelled_of_isText isBack,
    textOf_lexemes settledFront.lexemes, textOf_lexemes settledBack.lexemes,
    markerValues_of_isText_nil isFront] at spelling
  refine ⟨String.ofList (filled d count (spelled (p.targetChars d) lt)), ?_, count, lt, reads.read,
    String.toList_ofList⟩
  rw [← String.toList_inj, spelling, String.append_assoc, String.toList_append, String.toList_append,
    String.toList_ofList]
  rfl

/-- A statement has a line that limits the rows of a table. What stands in front of the limit and
behind it is written there, and the placeholders of the limit stand for the names that it lists. -/
structure Plan.HasLimit (p : Plan) (d : Dialect) (c : Clauses) (a : Alias) (r : Restriction)
    (st : Statement) (head limit foot : String) : Prop where
  line : ∃ front rest, st.sql = front ++ "\n" ++ (head ++ limit ++ foot) ++ rest ∧
    (rest = "" ∨ ∃ next, rest = "\n" ++ next)
  head : p.Writes d (limitHead d c a) head
  limit : ∃ before after, st.params = before ++ (r.bound ++ after) ∧
    limit = numbered d before.length (restrictionParts d r)
  foot : p.Writes d (limitFoot c a).text foot

/-- A statement is written part by part around the line that limits a table, and its values are those
of the parts. -/
theorem exists_reads_cut {p : Plan} {d : Dialect} {named : List (String × Value)}
    {front : Fragment} {head : String} {r : Restriction} {foot : Fragment} {back : List Fragment}
    {lf lh lt : List Lexeme} (readsFront : front.Reads p named lf)
    (leads : (Fragment.plain head).Leads p named lh) (names : AllInert d r.column.identifiers)
    (readsFoot : foot.Reads p named lt) (apart : StartsApart foot.text.toList)
    (bindable : ∀ f ∈ back, f.Bindable p named) (f : List Char → List Char) :
    ∃ ls, (front.append ((Fragment.plain "\n").append (((Fragment.plain head).append
        ((restrictionPiece d r).append foot)).append (following back)))).Reads p named ls ∧
      ∃ before after rest headCount footCount,
        filled d 0 (spelled f ls) = filled d 0 (spelled f lf) ++ ("\n".toList ++
          ((filled d headCount (spelled f lh) ++
            ((numbered d before.length (restrictionParts d r)).toList ++
              filled d footCount (spelled f lt))) ++ rest.toList)) ∧
        (rest = "" ∨ ∃ next, rest = "\n" ++ next) ∧
        markerValues named (front.params ++ (r.bound ++ foot.params ++ (following back).params)) ls =
          before ++ (r.bound ++ after) := by
  obtain ⟨ll, readsLimit, bound, numbering⟩ :=
    (exists_reads_restriction names : ∃ ls, (_ : Fragment).Reads p named ls ∧ _)
  obtain ⟨lb, readsBack, backApart, follows⟩ := exists_reads_following (d := d) bindable
  have newline : Settled "\n".toList [.char '\n'] := rfl
  have readsLine := leads (readsLimit.append readsFoot apart)
  have reads := readsFront.append ((readsLine.append readsBack backApart).behind newline (by decide))
    (by
      rw [Fragment.append, String.toList_append]
      exact startsApart_append (by decide) (by decide))
  have headBinds : Binds named [] lh := leads.reads.binds
  have limitBinds : Binds named r.bound ll := readsLimit.binds
  have lineBinds : Binds named ([] ++ (r.bound ++ foot.params)) (lh ++ (ll ++ lt)) := readsLine.binds
  have breakBinds : Binds named [] [.char '\n'] := binds_of_isText (by decide)
  obtain ⟨rest, written_rest, shape⟩ := follows f ((markerValues named front.params lf).length +
    (markerValues named ([] ++ (r.bound ++ foot.params)) (lh ++ (ll ++ lt))).length)
  refine ⟨_, reads, markerValues named front.params lf ++ markerValues named [] lh,
    markerValues named foot.params lt ++ markerValues named (following back).params lb, rest,
    (markerValues named front.params lf).length,
    (markerValues named front.params lf ++ markerValues named [] lh).length + r.bound.length,
    ?_, shape, ?_⟩
  · have noBreak : markerValues named [] [Lexeme.char '\n'] = [] := rfl
    rw [filled_spelled_append readsFront.binds, filled_spelled_append breakBinds,
      filled_spelled_append lineBinds, filled_spelled_append headBinds, filled_spelled_append limitBinds,
      noBreak, bound, List.length_nil, Nat.add_zero, Nat.zero_add, written_rest, numbering,
      List.length_append]
    rfl
  · show markerValues named (front.params ++ ([] ++ (([] ++ (r.bound ++ foot.params)) ++
      (following back).params))) _ = _
    rw [markerValues_append readsFront.binds.count, markerValues_append breakBinds.count,
      markerValues_append lineBinds.count, markerValues_append headBinds.count,
      markerValues_append limitBinds.count, bound]
    simp only [List.append_assoc]
    rfl

/-- **The line that limits a table is rendered.** -/
theorem exists_limit_of_build {s : Schema} {name : String} {p : Plan}
    (built : Plan.build s name = .ok p) {d : Dialect} {c : Clauses}
    (quote : isPlain d.quote ∧ ¬ isNameChar d.quote)
    (names : ∀ i ∈ p.identifiers, ∀ part ∈ i.parts, ∀ ch ∈ part.toList, isPlain ch)
    (columns : ∀ column ∈ p.storedColumns, ∀ ch ∈ column.toList, isPlain ch)
    (texts : ∀ f ∈ p.texts c, f.Bindable p c.named) {a : Alias} (ha : a ∈ p.aliases)
    {r : Restriction} (limit : p.limitOf a = some r) :
    ∃ st head limit foot, p.render d c = .ok st ∧ p.HasLimit d c a r st head limit foot := by
  obtain ⟨whole, ls, assembled, reads, -, rendered⟩ :=
    exists_rendered_of_build built quote names columns texts
  obtain ⟨before, after, cut, inside⟩ := exists_cut_of_limit (d := d) (c := c) built ha limit
  cases assembled.symm.trans cut
  -- every part can be read
  have inert := allInert_of_isPlain quote.1 names
  have bindable : ∀ f ∈ before ++ after, f.Bindable p c.named := by
    intro f hf
    obtain ⟨root, others, aliases, piece⟩ := inside f hf
    exact (allGive_pieces aliases inert texts).bindable f piece
  obtain ⟨front, back⟩ := List.forall_mem_append.mp bindable
  have own := inert.of_mem ha
  have ofTable : ∀ f ∈ a.texts, f.Bindable p c.named := fun f hf =>
    texts f (mem_texts_of_table c ha hf)
  have ofCaller : ∀ f ∈ c.filters, f.Bindable p c.named := fun f hf => texts f (by
    simp only [Plan.texts, List.mem_append]
    exact .inl (.inl (.inl (.inr hf))))
  obtain ⟨lf, readsFront⟩ := exists_reads_lines front
  obtain ⟨lh, leads⟩ := exists_leads_limitHead own ofTable c
  obtain ⟨⟨lt, readsFoot⟩, apart⟩ := bindable_limitFoot ofCaller a
  obtain ⟨ls', reads', bound, after', rest, headCount, footCount, written, shape, values⟩ :=
    exists_reads_cut readsFront leads (allInert_of_limit inert ha limit) readsFoot apart back
      (p.targetChars d)
  -- and the parts are the statement
  obtain rfl : ls' = ls := Except.ok.inj (reads'.read.symm.trans reads.read)
  refine ⟨_, String.ofList (filled d headCount (spelled (p.targetChars d) lh)),
    numbered d bound.length (restrictionParts d r),
    String.ofList (filled d footCount (spelled (p.targetChars d) lt)), rendered, ?_⟩
  constructor
  case line =>
    refine ⟨String.ofList (filled d 0 (spelled (p.targetChars d) lf)), rest, ?_, shape⟩
    rw [written]
    simp only [String.ofList_append, String.ofList_toList, String.append_assoc]
  case head => exact ⟨headCount, lh, leads.reads.read, String.toList_ofList⟩
  case limit => exact ⟨bound, after', values, rfl⟩
  case foot => exact ⟨footCount, lt, readsFoot.read, String.toList_ofList⟩

end Orm
