import Mathlib.Data.List.TakeWhile
import Orm.Proofs.Plan.JoinOrder
import Orm.Proofs.Plan.Resolution
import Orm.Proofs.Sql.Binding
import Orm.Proofs.Statement.Names

/-!
# `Proofs.Statement.Parameters` — the parameters of a statement

The values of a statement are collected piece by piece while it is put together, and matched to its
markers when the whole text is read once more, after its references have been replaced. Here the two
orders are shown to be one. A fragment *gives* values when it is read on its own, has a value for
each of its markers and names only tables and columns of the plan. Fragments that do can be put next
to each other, as long as a break stands between them, and the whole gives what its parts give.

## Contents
- **Fragments.** `Fragment.Reads`, `Fragment.Bindable`, `Fragment.values`, `Fragment.Gives`.
- **Combining.** `Reads.append`, `Reads.behind`, `Gives.append`, `Gives.behind`, `gives_join`.
- **Pieces.** What each piece of a statement gives.
- **Statements.** `Plan.texts`, `Plan.values`, `allGive_pieces`.
- **References.** `Plan.targetChars`, `resolveText_eq`.
- **The theorem.** `Statement.Numbers`, `Plan.render_numbers`.
-/

namespace Orm

open Text Sql Plan

/-! ## Fragments -/

namespace Sql.Fragment

/-- A fragment is read as lexemes. Each of its markers has a value, and each of its references is
one of the plan. -/
structure Reads (p : Plan) (named : List (String × Value)) (f : Fragment) (ls : List Lexeme) :
    Prop where
  read : lexemes f.text.toList = .ok ls
  binds : Binds named f.params ls
  known : ∀ n, .reference n ∈ ls → (p.resolve? (String.ofList n)).isSome

/-- A fragment that can be read and bound on its own. -/
def Bindable (p : Plan) (named : List (String × Value)) (f : Fragment) : Prop :=
  ∃ ls, f.Reads p named ls

/-- Whether a marker has a value and a reference is one of the plan. -/
def isSound (p : Plan) (named : List (String × Value)) : Lexeme → Bool
  | .named n => (named.lookup (String.ofList n)).isSome
  | .reference n => (p.resolve? (String.ofList n)).isSome
  | _ => true

theorem reads_iff {p : Plan} {named : List (String × Value)} {f : Fragment} {ls : List Lexeme} :
    f.Reads p named ls ↔ lexemes f.text.toList = .ok ls ∧ countPositional ls = f.params.length ∧
      ∀ l ∈ ls, isSound p named l := by
  constructor
  · rintro ⟨read, ⟨count, bound⟩, known⟩
    refine ⟨read, count, fun l hl => ?_⟩
    cases l with
    | named n => exact bound n hl
    | reference n => exact known n hl
    | _ => rfl
  · rintro ⟨read, count, sound⟩
    exact ⟨read, ⟨count, fun n hn => sound _ hn⟩, fun n hn => sound _ hn⟩

instance (p : Plan) (named : List (String × Value)) (f : Fragment) :
    Decidable (f.Bindable p named) :=
  match h : lexemes f.text.toList with
  | .error _ => isFalse fun ⟨_, reads⟩ => nomatch h.symm.trans reads.read
  | .ok ls => decidable_of_iff
      (countPositional ls = f.params.length ∧ ∀ l ∈ ls, isSound p named l) <| by
    constructor
    · intro sound
      exact ⟨ls, reads_iff.mpr ⟨h, sound⟩⟩
    · rintro ⟨ls', reads⟩
      obtain rfl : ls = ls' := Except.ok.inj (h.symm.trans reads.read)
      exact (reads_iff.mp reads).2

/-- The values of the markers of a fragment, in the order of its text. -/
def values (named : List (String × Value)) (f : Fragment) : List Value :=
  match lexemes f.text.toList with
  | .ok ls => markerValues named f.params ls
  | .error _ => []

/-- A fragment that can be read and bound on its own, and then has these values. -/
structure Gives (p : Plan) (named : List (String × Value)) (f : Fragment) (vs : List Value) :
    Prop where
  bindable : f.Bindable p named
  values : f.values named = vs

/-- Fragments that can be read and bound on their own, and then have these values one after the
other. -/
structure AllGive (p : Plan) (named : List (String × Value)) (fs : List Fragment)
    (vs : List Value) : Prop where
  bindable : ∀ f ∈ fs, f.Bindable p named
  values : fs.flatMap (·.values named) = vs

end Sql.Fragment

section

variable {p : Plan} {named : List (String × Value)} {f g : Fragment} {vs ws : List Value}
  {ls : List Lexeme}

theorem Sql.Fragment.Reads.values (h : f.Reads p named ls) :
    f.values named = markerValues named f.params ls := by
  simp [Fragment.values, h.read]

theorem Sql.Fragment.Reads.gives (h : f.Reads p named ls) :
    f.Gives p named (markerValues named f.params ls) :=
  ⟨⟨ls, h⟩, h.values⟩

theorem Sql.Fragment.Bindable.gives (h : f.Bindable p named) : f.Gives p named (f.values named) :=
  ⟨h, rfl⟩

/-! ## Combining -/

/-- Text is no marker. -/
theorem not_isMarker_of_isText {l : Lexeme} (h : l.isText) : ¬ l.isMarker := by
  cases l <;> simp [Lexeme.isText, Lexeme.isMarker] at h ⊢

theorem startsApart_append {a b : List Char} (ne : a ≠ []) (h : StartsApart a) :
    StartsApart (a ++ b) := by
  intro c hc
  rw [List.head?_append_of_ne_nil _ ne] at hc
  exact h c hc

/-- A text without markers is bound to nothing. -/
theorem binds_of_isText {lt : List Lexeme} (isText : ∀ l ∈ lt, l.isText) : Binds named [] lt := by
  refine ⟨?_, fun n hn => nomatch isText _ hn⟩
  show countPositional lt = 0
  rw [countPositional, List.countP_eq_zero]
  intro l hl marker
  cases eq_of_beq marker
  cases isText _ hl

namespace Sql.Fragment.Reads

/-- A fragment behind another one is read after it. -/
theorem append {lf lg : List Lexeme} (hf : f.Reads p named lf) (hg : g.Reads p named lg)
    (apart : StartsApart g.text.toList) : (f.append g).Reads p named (lf ++ lg) := by
  refine ⟨?_, hf.binds.append hg.binds, ?_⟩
  · rw [Fragment.append, String.toList_append]
    exact lexemes_append hf.read hg.read apart
  · intro n hn
    exact (List.mem_append.mp hn).elim (hf.known n) (hg.known n)

/-- A fragment behind a settled text is read after it. -/
theorem behind {text : String} {lt lg : List Lexeme} (settled : Settled text.toList lt)
    (isText : ∀ l ∈ lt, l.isText) (hg : g.Reads p named lg) :
    ((Fragment.plain text).append g).Reads p named (lt ++ lg) := by
  refine ⟨?_, (binds_of_isText isText).append hg.binds, ?_⟩
  · rw [Fragment.append, String.toList_append]
    exact settled.lexemes_append hg.read
  · intro n hn
    rcases List.mem_append.mp hn with inText | later
    · exact absurd (isText _ inText) (by simp [Lexeme.isText])
    · exact hg.known n later

end Sql.Fragment.Reads

/-- A text without markers takes no values. -/
theorem markerValues_of_isText {lt : List Lexeme} (isText : ∀ l ∈ lt, l.isText)
    (positional : List Value) (ls : List Lexeme) :
    markerValues named positional (lt ++ ls) = markerValues named positional ls := by
  induction lt with
  | nil => rfl
  | cons l rest ih =>
    have later := ih fun l hl => isText l (List.mem_cons_of_mem _ hl)
    cases l with
    | char c => exact later
    | literal text => exact later
    | _ => cases isText _ List.mem_cons_self

namespace Sql.Fragment.Gives

/-- A fragment behind another one gives its values behind those of the other. -/
theorem append (hf : f.Gives p named vs) (hg : g.Gives p named ws)
    (apart : StartsApart g.text.toList) : (f.append g).Gives p named (vs ++ ws) := by
  obtain ⟨⟨lf, rf⟩, rfl⟩ := hf
  obtain ⟨⟨lg, rg⟩, rfl⟩ := hg
  have read := rf.append rg apart
  rw [rf.values, rg.values, ← markerValues_append rf.binds.count]
  exact read.gives

/-- A fragment behind an inert text gives what it gives. -/
theorem behind {text : String} (ht : Inert text) (hg : g.Gives p named ws) :
    ((Fragment.plain text).append g).Gives p named ws := by
  obtain ⟨lt, settled, isText⟩ := ht
  obtain ⟨⟨lg, rg⟩, rfl⟩ := hg
  have read := rg.behind settled isText
  rw [rg.values, ← markerValues_of_isText isText]
  exact read.gives

end Sql.Fragment.Gives

theorem gives_empty : (Fragment.plain "").Gives p named [] :=
  (⟨rfl, Binds.nil, fun _ h => nomatch h⟩ : (Fragment.plain "").Reads p named []).gives

/-- An inert text gives nothing. -/
theorem gives_inert {text : String} (ht : Inert text) : (Fragment.plain text).Gives p named [] := by
  have behind : ((Fragment.plain text).append (Fragment.plain "")).Gives p named [] :=
    gives_empty.behind ht
  simpa [Fragment.append, Fragment.plain] using behind

namespace Sql.Fragment.AllGive

theorem nil : AllGive p named [] [] :=
  ⟨fun _ h => (nomatch h), rfl⟩

theorem append {fs gs : List Fragment} (hf : AllGive p named fs vs) (hg : AllGive p named gs ws) :
    AllGive p named (fs ++ gs) (vs ++ ws) where
  bindable f h := (List.mem_append.mp h).elim (hf.bindable f) (hg.bindable f)
  values := by rw [List.flatMap_append, hf.values, hg.values]

theorem singleton (h : f.Gives p named vs) : AllGive p named [f] vs where
  bindable g hg := List.mem_singleton.mp hg ▸ h.bindable
  values := by simpa using h.values

theorem only (h : AllGive p named [f] vs) : f.Gives p named vs where
  bindable := h.bindable f List.mem_cons_self
  values := by simpa using h.values

theorem map {α : Type} {items : List α} {piece : α → Fragment} {given : α → List Value}
    (h : ∀ a ∈ items, (piece a).Gives p named (given a)) :
    AllGive p named (items.map piece) (items.flatMap given) where
  bindable f hf := by
    obtain ⟨a, ha, rfl⟩ := List.mem_map.mp hf
    exact (h a ha).bindable
  values := by
    rw [List.flatMap_map]
    exact List.flatMap_congr fun a ha => (h a ha).values

end Sql.Fragment.AllGive

/-- A marker with its value gives it. -/
theorem gives_marker (value : Value) : (⟨"?", [value]⟩ : Fragment).Gives p named [value] := by
  have read : lexemes "?".toList = .ok [.positional] := by decide
  have reads : (⟨"?", [value]⟩ : Fragment).Reads p named [.positional] :=
    ⟨read, ⟨rfl, by simp⟩, by simp⟩
  exact reads.gives

/-- Fragments with a break between neighbours give what they give one after the other. -/
theorem gives_join {separator : String} {fs : List Fragment} (hs : Inert separator)
    (ne : separator.toList ≠ []) (apart : StartsApart separator.toList)
    (h : Fragment.AllGive p named fs vs) : (Fragment.join separator fs).Gives p named vs := by
  obtain ⟨bindable, rfl⟩ := h
  induction fs with
  | nil => exact gives_empty
  | cons f rest ih =>
    have here := (bindable f List.mem_cons_self).gives
    have later := ih fun g hg => bindable g (List.mem_cons_of_mem _ hg)
    cases rest with
    | nil => simpa [Fragment.join, joinWith] using here
    | cons g more =>
      have apart' : StartsApart
          ((Fragment.plain separator).append (Fragment.join separator (g :: more))).text.toList := by
        rw [Fragment.append, String.toList_append]
        exact startsApart_append ne apart
      have joined := here.append (later.behind hs) apart'
      simpa [Fragment.join, Fragment.append, Fragment.plain, joinWith, String.append_assoc] using joined

/-- What trims to nothing is blank throughout. -/
theorem isBlank_of_trim {text : List Char} (h : (trim text).isEmpty) : ∀ c ∈ text, isBlank c := by
  have none : List.dropWhile isBlank (trimStart text).reverse = [] := by
    simpa [trim, trimStart] using h
  rw [List.dropWhile_eq_nil_iff] at none
  intro c hc
  rw [← List.takeWhile_append_dropWhile (p := isBlank) (l := text)] at hc
  rcases List.mem_append.mp hc with front | rest
  · exact List.mem_takeWhile_imp front
  · exact none c (List.mem_reverse.mpr rest)

/-- A blank fragment gives nothing. -/
theorem values_of_isBlank (blank : f.isBlank) (h : f.Bindable p named) : f.values named = [] := by
  have plain : ∀ c ∈ f.text.toList, isPlain c := by
    intro c hc
    have isBlank := isBlank_of_trim blank c hc
    simp only [isPlain, Bool.and_eq_true, bne_iff_ne]
    refine ⟨⟨⟨?_, ?_⟩, ?_⟩, ?_⟩ <;> rintro rfl <;> revert isBlank <;> decide
  obtain ⟨ls, reads⟩ := h
  have chars : ls = f.text.toList.map .char :=
    Except.ok.inj (reads.read.symm.trans (Settled.of_isPlain plain).lexemes)
  rw [reads.values]
  apply List.eq_nil_of_length_eq_zero
  rw [length_markerValues reads.binds, List.countP_eq_zero, chars]
  simp [Lexeme.isMarker]

end

/-! ## What the parts of a plan give -/

namespace Plan

/-- The raw text of an expression. -/
def Expression.texts : Expression → List Fragment
  | .column _ => []
  | .raw sql => [.plain sql]

/-- The raw text of a condition. -/
def Condition.texts : Condition → List Fragment
  | .columns _ => []
  | .raw sql => [.plain sql]

/-- The raw text that an alias is joined by. -/
def Alias.texts (a : Alias) : List Fragment :=
  a.join.toList.flatMap (·.condition.texts)

/-- The values that a column is limited to. -/
def Restriction.bound (r : Restriction) : List Value :=
  r.values.map .text

def Expression.values (named : List (String × Value)) (e : Expression) : List Value :=
  e.texts.flatMap (·.values named)

def Join.values (named : List (String × Value)) (j : Join) : List Value :=
  j.condition.texts.flatMap (·.values named) ++ j.restriction.toList.flatMap (·.bound)

def Alias.values (named : List (String × Value)) (a : Alias) : List Value :=
  a.join.toList.flatMap (·.values named)

end Plan

/-- The raw texts of a statement: those of the plan, without values of their own, and the
caller's. -/
def Plan.texts (p : Plan) (c : Clauses) : List Fragment :=
  p.select.flatMap (·.expression.texts) ++ p.aliases.flatMap (·.texts) ++
    p.extraJoins.map .plain ++ c.filters ++ p.groupBy.flatMap (·.texts) ++ c.groupBy ++ c.orderBy

/-- The values of a statement in the order of its text: the select list, the joins, the joins of
types, the conditions, the grouping and the order. -/
def Plan.values (p : Plan) (c : Clauses) : List Value :=
  p.select.flatMap (·.expression.values c.named) ++
    p.aliases.tail.flatMap (·.values c.named) ++
    p.extraJoins.flatMap (fun text => (Fragment.plain text).values c.named) ++
    (p.restriction.toList.flatMap (·.bound) ++ c.filters.flatMap (·.values c.named)) ++
    (p.groupBy.flatMap (·.values c.named) ++ c.groupBy.flatMap (·.values c.named)) ++
    c.orderBy.flatMap (·.values c.named)

section

variable {p : Plan} {d : Dialect} {named : List (String × Value)}

/-- An expression gives what its raw text gives, and other text may stand behind it. -/
theorem gives_expression {e : Expression} (names : AllInert d e.identifiers)
    (texts : ∀ f ∈ e.texts, f.Bindable p named) :
    (Fragment.plain (expressionText d e)).Gives p named (e.values named) := by
  cases e with
  | column ref => exact gives_inert (inert_columnText names)
  | raw sql =>
    have given := (texts (.plain sql) (by simp [Expression.texts])).gives
    simpa [Expression.values, Expression.texts, expressionText] using given

theorem gives_condition {c : Condition} (names : AllInert d c.identifiers)
    (texts : ∀ f ∈ c.texts, f.Bindable p named) :
    (Fragment.plain (conditionText d c)).Gives p named (c.texts.flatMap (·.values named)) := by
  cases c with
  | columns pairs => exact gives_inert (inert_conditionText names)
  | raw sql =>
    have given := (texts (.plain sql) (by simp [Condition.texts])).gives
    simpa [Condition.texts, conditionText] using given

/-- A limit gives its values. -/
theorem gives_restriction {r : Restriction} (names : AllInert d r.column.identifiers) :
    (restrictionPiece d r).Gives p named r.bound := by
  have column : Inert (columnText d r.column ++ " IN (") :=
    inert_append (inert_columnText names) (inert_of_all (by decide))
  have list : (Fragment.join ", " (r.values.map fun v => ⟨"?", [.text v]⟩)).Gives p named
      (r.values.flatMap fun v => [.text v]) :=
    gives_join (inert_of_all (by decide)) (by decide) (by decide)
      (.map fun v _ => gives_marker (.text v))
  have closed := list.append (gives_inert (inert_of_all (by decide))) (g := .plain ")") (by decide)
  have whole := closed.behind column
  have same : (Fragment.plain (columnText d r.column ++ " IN (")).append
      ((Fragment.join ", " (r.values.map fun v => ⟨"?", [.text v]⟩)).append (.plain ")")) =
        restrictionPiece d r := by
    simp only [Fragment.append, Fragment.join, Fragment.plain, restrictionPiece, List.map_map,
      List.flatMap_map, List.append_nil, List.nil_append, String.append_assoc, Fragment.mk.injEq]
    exact ⟨rfl, List.map_eq_flatMap.symm⟩
  rw [same, List.append_nil] at whole
  rw [Restriction.bound, List.map_eq_flatMap]
  exact whole

/-- An entry of the select list gives what its expression gives. -/
theorem gives_item {item : SelectItem} (names : AllInert d item.identifiers)
    (texts : ∀ f ∈ item.expression.texts, f.Bindable p named) :
    (Fragment.plain (itemText d item)).Gives p named (item.expression.values named) := by
  obtain ⟨expression, label⟩ := allInert_append.mp names
  have name : Inert (d.label item.label) := label (.label item.label) List.mem_cons_self
  have behind : (Fragment.plain (" AS " ++ d.label item.label)).Gives p named [] :=
    gives_inert (inert_append (inert_of_all (by decide)) name)
  have apart : StartsApart (" AS " ++ d.label item.label).toList := by
    rw [String.toList_append]
    exact startsApart_append (by decide) (by decide)
  have whole := (gives_expression expression texts).append behind apart
  simpa [Fragment.append, Fragment.plain, itemText, String.append_assoc] using whole

theorem gives_selectPiece (names : ∀ item ∈ p.select, AllInert d item.identifiers)
    (texts : ∀ item ∈ p.select, ∀ f ∈ item.expression.texts, f.Bindable p named) :
    (p.selectPiece d).Gives p named (p.select.flatMap (·.expression.values named)) := by
  have list : (Fragment.join ", " (p.select.map fun item => .plain (itemText d item))).Gives p named
      (p.select.flatMap (·.expression.values named)) :=
    gives_join (inert_of_all (by decide)) (by decide) (by decide)
      (.map fun item hitem => gives_item (names item hitem) (texts item hitem))
  have word : Inert "SELECT " := inert_of_all (by decide)
  have whole := list.behind word
  have same : (Fragment.plain "SELECT ").append
      (Fragment.join ", " (p.select.map fun item => .plain (itemText d item))) =
        p.selectPiece d := by
    simp [Fragment.append, Fragment.join, Fragment.plain, selectPiece, Function.comp_def,
      List.flatMap_map]
  rw [same] at whole
  exact whole

/-- A joined table gives what its condition gives and then the values it is limited to. -/
theorem gives_joinPiece {a : Alias} {j : Join} (names : AllInert d a.identifiers)
    (joined : a.join = some j) (texts : ∀ f ∈ j.condition.texts, f.Bindable p named) :
    (joinPiece d a j).Gives p named (j.values named) := by
  obtain ⟨-, own⟩ := allInert_append.mp names
  have join : AllInert d j.identifiers := allInert_flatMap.mp own j (by simp [joined])
  obtain ⟨condition, restriction⟩ := allInert_append.mp join
  have clause : (Fragment.plain (j.type.keyword ++ " " ++ tableText d a ++ " ON " ++
      conditionText d j.condition)).Gives p named (j.condition.texts.flatMap (·.values named)) :=
    (gives_condition condition texts).behind (inert_joined names j.type)
  cases limit : j.restriction with
  | none => simpa [joinPiece, Join.values, limit] using clause
  | some r =>
    have limited : AllInert d r.column.identifiers := allInert_flatMap.mp restriction r (by simp [limit])
    have word : Inert " AND " := inert_of_all (by decide)
    have apart : StartsApart ((Fragment.plain " AND ").append (restrictionPiece d r)).text.toList := by
      rw [Fragment.append, String.toList_append]
      exact startsApart_append (by decide) (by decide)
    have whole := clause.append ((gives_restriction limited).behind word) apart
    simpa [joinPiece, Join.values, limit, Fragment.append, Fragment.plain, String.append_assoc]
      using whole

/-- Joined tables give what they give one after the other. -/
theorem allGive_joinPieces {aliases : List Alias} (names : ∀ a ∈ aliases, AllInert d a.identifiers)
    (texts : ∀ a ∈ aliases, ∀ f ∈ a.texts, f.Bindable p named) :
    Fragment.AllGive p named (joinPieces d aliases) (aliases.flatMap (·.values named)) := by
  induction aliases with
  | nil => exact .nil
  | cons a rest ih =>
    have later := ih (fun b hb => names b (List.mem_cons_of_mem _ hb))
      fun b hb => texts b (List.mem_cons_of_mem _ hb)
    cases joined : a.join with
    | none => simpa [joinPieces, joined, Alias.values] using later
    | some j =>
      have texts' : ∀ f ∈ j.condition.texts, f.Bindable p named := by
        intro f hf
        exact texts a List.mem_cons_self f (by simpa [Alias.texts, joined] using hf)
      have here := gives_joinPiece (names a List.mem_cons_self) joined texts'
      have both := (Fragment.AllGive.singleton here).append later
      simpa [joinPieces, joined, Alias.values] using both

/-- A condition in parentheses gives what it gives without. -/
theorem gives_parenthesized {f : Fragment} {vs : List Value} (h : f.Gives p named vs) :
    f.parenthesized.Gives p named vs := by
  have close : Inert ")" := inert_of_all (by decide)
  have open_ : Inert "(" := inert_of_all (by decide)
  have whole := (h.append (gives_inert close) (by decide)).behind open_
  simpa [Fragment.parenthesized, Fragment.mapText, Fragment.append, Fragment.plain,
    String.append_assoc] using whole

/-- Blank conditions may be left out. -/
theorem flatMap_filter_isBlank {fs : List Fragment} (h : ∀ f ∈ fs, f.Bindable p named) :
    (fs.filter (!·.isBlank)).flatMap (·.values named) = fs.flatMap (·.values named) := by
  induction fs with
  | nil => rfl
  | cons f rest ih =>
    have later := ih fun g hg => h g (List.mem_cons_of_mem _ hg)
    by_cases blank : f.isBlank
    · have nothing := values_of_isBlank blank (h f List.mem_cons_self)
      simp [blank, later, nothing]
    · simp [blank, later]

/-- The conditions on rows give what they give one after the other. -/
theorem allGive_wherePiece {c : Clauses}
    (names : AllInert d (p.restriction.toList.flatMap (·.column.identifiers)))
    (texts : ∀ f ∈ c.filters, f.Bindable p named) :
    Fragment.AllGive p named (p.wherePiece d c)
      (p.restriction.toList.flatMap (·.bound) ++ c.filters.flatMap (·.values named)) := by
  have limits : Fragment.AllGive p named ((p.restriction.map (restrictionPiece d)).toList)
      (p.restriction.toList.flatMap (·.bound)) := by
    cases limit : p.restriction with
    | none => exact .nil
    | some r =>
      have limited := allInert_flatMap.mp names r (by simp [limit])
      simpa using Fragment.AllGive.singleton (gives_restriction limited)
  have filters : Fragment.AllGive p named (c.filters.filter (!·.isBlank))
      (c.filters.flatMap (·.values named)) := by
    refine ⟨fun f hf => texts f (List.mem_of_mem_filter hf), ?_⟩
    exact flatMap_filter_isBlank texts
  have both := limits.append filters
  have word : Inert "WHERE " := inert_of_all (by decide)
  unfold wherePiece
  simp only
  -- One condition stands alone, several stand in parentheses.
  generalize (p.restriction.map (restrictionPiece d)).toList ++ c.filters.filter (!·.isBlank) =
    conditions at both ⊢
  split
  · exact both
  · next condition =>
    exact .singleton (both.only.behind word)
  · have each : Fragment.AllGive p named (conditions.map .parenthesized)
        (conditions.flatMap (·.values named)) :=
      .map fun f hf => gives_parenthesized (both.bindable f hf).gives
    rw [both.values] at each
    have joined : (Fragment.join " AND " (conditions.map .parenthesized)).Gives p named _ :=
      gives_join (inert_of_all (by decide)) (by decide) (by decide) each
    exact .singleton (joined.behind word)

/-- A grouping or an order gives what its terms give. -/
theorem allGive_listPiece {keyword : String} {terms : List Fragment} {vs : List Value}
    (hk : Inert keyword) (h : Fragment.AllGive p named terms vs) :
    Fragment.AllGive p named (listPiece keyword terms) vs := by
  unfold listPiece
  split
  · next none =>
    rw [List.isEmpty_iff] at none
    exact none ▸ h
  · have joined : (Fragment.join ", " terms).Gives p named vs :=
      gives_join (inert_of_all (by decide)) (by decide) (by decide) h
    exact .singleton (joined.behind hk)

/-- Numbers give nothing. -/
theorem allGive_limitPieces (c : Clauses) : Fragment.AllGive p named (limitPieces c) [] := by
  -- Digits are plain.
  have number (n : Nat) : Inert (String.ofList (decimal n)) := by
    apply inert_of_isPlain
    intro ch hch
    rw [String.toList_ofList] at hch
    have digit := Nat.isDigit_of_mem_toDigits (by decide) (by decide) hch
    exact isPlain_of_isNameChar (by simp [isNameChar, Char.isAlphanum, digit])
  have limit : Fragment.AllGive p named
      (c.limit.map fun n => Fragment.plain ("LIMIT " ++ String.ofList (decimal n))).toList [] := by
    cases c.limit with
    | none => exact .nil
    | some n =>
      exact .singleton (gives_inert (inert_append (inert_of_all (by decide)) (number n)))
  have offset : Fragment.AllGive p named
      (c.offset.map fun n => Fragment.plain ("OFFSET " ++ String.ofList (decimal n))).toList [] := by
    cases c.offset with
    | none => exact .nil
    | some n =>
      exact .singleton (gives_inert (inert_append (inert_of_all (by decide)) (number n)))
  exact limit.append offset

/-- The pieces of a statement give the values of the plan and the caller in their order. -/
theorem allGive_pieces {c : Clauses} {root : Alias} {joined : List Alias}
    (aliases : p.aliases = root :: joined) (names : AllInert d p.identifiers)
    (texts : ∀ f ∈ p.texts c, f.Bindable p c.named) :
    Fragment.AllGive p c.named (p.pieces d c root joined) (p.values c) := by
  obtain ⟨⟨⟨selectNames, aliasNames⟩, limitNames⟩, groupNames⟩ :
      ((AllInert d _ ∧ AllInert d _) ∧ AllInert d _) ∧ AllInert d _ := by
    simpa only [Plan.identifiers, allInert_append] using names
  rw [allInert_flatMap] at selectNames aliasNames groupNames
  -- The raw texts, by the piece that they stand in.
  simp only [Plan.texts, List.forall_mem_append, List.forall_mem_flatMap] at texts
  obtain ⟨⟨⟨⟨⟨⟨ofSelect, ofAliases⟩, ofExtra⟩, ofFilters⟩, ofGroups⟩, ofGroup⟩, ofOrder⟩ := texts
  -- What each piece gives.
  have from_ : (fromPiece d root).Gives p c.named [] := by
    have table := inert_tableText (aliasNames root (by simp [aliases]))
    exact gives_inert (inert_append (inert_of_all (by decide)) table)
  have placed : ∀ a ∈ joined, a ∈ p.aliases := fun a ha => aliases ▸ List.mem_cons_of_mem _ ha
  have joins : Fragment.AllGive p c.named (joinPieces d joined) (joined.flatMap (·.values c.named)) :=
    allGive_joinPieces (fun a ha => aliasNames a (placed a ha)) fun a ha => ofAliases a (placed a ha)
  have extra : Fragment.AllGive p c.named (p.extraJoins.map .plain) _ := .map fun text htext =>
    (ofExtra _ (List.mem_map_of_mem htext)).gives
  have conditions := allGive_wherePiece limitNames ofFilters
  have groups : Fragment.AllGive p c.named (p.groupPiece d c) _ :=
    allGive_listPiece (inert_of_all (by decide))
      ((Fragment.AllGive.map fun e he => gives_expression (groupNames e he) (ofGroups e he)).append
        ⟨ofGroup, rfl⟩)
  have order : Fragment.AllGive p c.named (orderPiece c) _ :=
    allGive_listPiece (inert_of_all (by decide)) ⟨ofOrder, rfl⟩
  have all := ((((((Fragment.AllGive.singleton (gives_selectPiece selectNames ofSelect)).append
    (.singleton from_)).append joins).append extra).append conditions).append groups).append order
      |>.append (allGive_limitPieces c)
  simpa [Plan.values, aliases, pieces] using all

end

/-! ## References -/

section

variable {p : Plan} {d : Dialect}

/-- The text of what a reference stands for; nothing when it stands for nothing. -/
def Plan.targetChars (p : Plan) (d : Dialect) (n : List Char) : List Char :=
  ((p.resolve? (String.ofList n)).map fun t => (t.text d).toList).getD []

/-- What references stand for is written plainly. -/
theorem isPlain_targetChars (quote : isPlain d.quote)
    (paths : ∀ a ∈ p.aliases, ∀ ch ∈ a.path.toList, isPlain ch)
    (columns : ∀ column ∈ p.storedColumns, ∀ ch ∈ column.toList, isPlain ch) {n : List Char}
    (path : isPath n) : ∀ ch ∈ p.targetChars d n, isPlain ch := by
  unfold Plan.targetChars
  cases found : p.resolve? (String.ofList n) with
  | none => simp
  | some t =>
    obtain ⟨a, ha, rfl | ⟨column, rfl, stored⟩⟩ := target_of_resolve? found
    · exact forall_mem_quoted quote (paths a ha)
    · have plain : ∀ ch ∈ column.toList, isPlain ch := by
        rcases stored with stored | own
        · exact columns column stored
        · intro ch hch
          exact isPlain_of_isPath path ch (by simpa using own ch hch)
      exact forall_mem_point (by decide) (forall_mem_quoted quote (paths a ha))
        (forall_mem_name quote plain)

/-- What references stand for begins with the quote. -/
theorem targetChars_starts {n : List Char} (known : (p.resolve? (String.ofList n)).isSome) :
    ∃ rest, p.targetChars d n = d.quote :: rest := by
  obtain ⟨t, found⟩ := Option.isSome_iff_exists.mp known
  cases t with
  | table path =>
    refine ⟨doubled d.quote path.toList ++ [d.quote], ?_⟩
    simp [Plan.targetChars, found, Target.text, Dialect.label, Dialect.quoted, quoteChars]
  | column path column =>
    refine ⟨doubled d.quote path.toList ++ d.quote :: '.' :: (d.name column).toList, ?_⟩
    simp [Plan.targetChars, found, Target.text, Dialect.label, Dialect.quoted, quoteChars]

/-- A text with references of the plan is resolved by replacing each by what it stands for. -/
theorem resolveText_eq {text : String} {ls : List Lexeme} (h : lexemes text.toList = .ok ls)
    (known : ∀ n, .reference n ∈ ls → (p.resolve? (String.ofList n)).isSome) :
    p.resolveText d text = .ok (String.ofList (replacedText (p.targetChars d) ls)) := by
  unfold resolveText substituteReferences
  rw [h]
  show (substituteLexemes (p.referenceText d) ls >>= fun chars => pure (String.ofList chars)) = _
  have here : ∀ n, .reference n ∈ ls →
      p.referenceText d (String.ofList n) = .ok (String.ofList (p.targetChars d n)) := by
    intro n hn
    obtain ⟨t, found⟩ := Option.isSome_iff_exists.mp (known n hn)
    simp [referenceText, Plan.targetChars, found]
  rw [substituteLexemes_eq here]
  rfl

end

/-! ## The theorem -/

/-- The placeholders of a statement and its values, counted alike: at the place of every marker of
the lexemes the text has the placeholder whose number is the position of the marker's value. -/
structure Sql.Statement.Numbers (st : Statement) (d : Dialect) (named : List (String × Value))
    (positional : List Value) (ls : List Lexeme) : Prop where
  text : st.sql.toList = filled d 0 ls
  count : st.params.length = ls.countP (·.isMarker)
  place : ∀ before m after, ls = before ++ m :: after → m.isMarker →
    st.sql.toList = filled d 0 before ++
      (d.placeholderText (before.countP (·.isMarker) + 1)).toList ++
        filled d (before.countP (·.isMarker) + 1) after ∧
    st.params[before.countP (·.isMarker)]? =
      m.value? named (positional.drop (countPositional before))

/-- Binding numbers the values. -/
theorem numbers_of_binds {d : Dialect} {named : List (String × Value)} {positional : List Value}
    {ls : List Lexeme} (h : Binds named positional ls) :
    (⟨String.ofList (filled d 0 ls), markerValues named positional ls⟩ : Statement).Numbers d named
      positional ls where
  text := String.toList_ofList
  count := length_markerValues h
  place before m after split marker := by
    subst split
    exact ⟨String.toList_ofList.trans (filled_marker marker before after),
      getElem?_markerValues marker h⟩

/-- A plan that is built has tables. -/
theorem aliases_ne_nil_of_build {s : Schema} {name : String} {p : Plan}
    (built : Plan.build s name = .ok p) : p.aliases ≠ [] := by
  obtain ⟨asked, ⟨declared, layout, members, d, -, -, derived, rfl⟩⟩ := derivation_of_build built
  have taken : d.paths ≠ [] := List.ne_nil_of_mem derived.takes_path.1
  intro none
  exact taken (congrArg (List.map Alias.path) none)

/-- The statement of a plan can be read when its names are inert and its raw texts can be read and
bound on their own. It gives what its pieces give. -/
theorem exists_reads_of_build {s : Schema} {name : String} {p : Plan}
    (built : Plan.build s name = .ok p) {d : Dialect} {c : Clauses}
    (names : AllInert d p.identifiers) (texts : ∀ f ∈ p.texts c, f.Bindable p c.named) :
    ∃ a ls, p.assemble d c = .ok a ∧ a.Reads p c.named ls ∧ a.values c.named = p.values c := by
  obtain ⟨root, joined, aliases⟩ := List.exists_cons_of_ne_nil (aliases_ne_nil_of_build built)
  have pieces := allGive_pieces aliases names texts
  obtain ⟨⟨ls, reads⟩, values⟩ : (Fragment.join "\n" (p.pieces d c root joined)).Gives p c.named _ :=
    gives_join (inert_of_all (by decide)) (by decide) (by decide) pieces
  exact ⟨_, ls, by simp [assemble, aliases], reads, values⟩

/-- A statement that can be read, and whose references stand for plain texts, is rendered with each
marker bound. -/
theorem render_of_reads {p : Plan} {d : Dialect} {c : Clauses} {a : Fragment} {ls : List Lexeme}
    (assembled : p.assemble d c = .ok a) (reads : a.Reads p c.named ls)
    (written : ∀ n, .reference n ∈ ls →
      (∃ ch rest, p.targetChars d n = ch :: rest ∧ endsMarker ch) ∧
        ∀ ch ∈ p.targetChars d n, isPlain ch) :
    p.render d c = .ok ⟨String.ofList (filled d 0 (spelled (p.targetChars d) ls)),
      markerValues c.named a.params ls⟩ := by
  unfold render
  rw [assembled]
  show (p.resolveText d a.text >>= fun resolved => bindParameters d c.named a.params resolved) = _
  rw [resolveText_eq reads.read reads.known]
  exact bindParameters_replaced reads.read reads.binds written

/-- When names and quotes are plain and every raw text can be read and bound on its own, the statement
is rendered with its references spelled out and each marker bound. -/
theorem exists_rendered_of_build {s : Schema} {name : String} {p : Plan}
    (built : Plan.build s name = .ok p) {d : Dialect} {c : Clauses}
    (quote : isPlain d.quote ∧ ¬ isNameChar d.quote)
    (names : ∀ i ∈ p.identifiers, ∀ part ∈ i.parts, ∀ ch ∈ part.toList, isPlain ch)
    (columns : ∀ column ∈ p.storedColumns, ∀ ch ∈ column.toList, isPlain ch)
    (texts : ∀ f ∈ p.texts c, f.Bindable p c.named) :
    ∃ a ls, p.assemble d c = .ok a ∧ a.Reads p c.named ls ∧ a.values c.named = p.values c ∧
      p.render d c = .ok ⟨String.ofList (filled d 0 (spelled (p.targetChars d) ls)),
        markerValues c.named a.params ls⟩ := by
  obtain ⟨a, ls, assembled, reads, values⟩ := exists_reads_of_build built
    (allInert_of_isPlain quote.1 names) texts
  have paths : ∀ a ∈ p.aliases, ∀ ch ∈ a.path.toList, isPlain ch := by
    intro a ha
    refine names (.label a.path) ?_ a.path (by simp [Identifier.parts])
    simp only [Plan.identifiers, List.mem_append, List.mem_flatMap]
    exact .inl (.inl (.inr ⟨a, ha, by simp [Alias.identifiers]⟩))
  have written : ∀ n, .reference n ∈ ls →
      (∃ ch rest, p.targetChars d n = ch :: rest ∧ endsMarker ch) ∧
        ∀ ch ∈ p.targetChars d n, isPlain ch := by
    intro n hn
    obtain ⟨rest, starts⟩ := targetChars_starts (d := d) (reads.known n hn)
    refine ⟨⟨d.quote, rest, starts, ?_⟩, ?_⟩
    · have := quote.1
      simp only [isPlain, Bool.and_eq_true, bne_iff_ne] at this
      simp [endsMarker, quote.2, this]
    · exact isPlain_targetChars quote.1 paths columns (isPath_of_mem reads.read hn)
  exact ⟨a, ls, assembled, reads, values, render_of_reads assembled reads written⟩

/-- The values of the statement are those of the plan and its clauses. -/
theorem params_of_render {s : Schema} {name : String} {p : Plan}
    (built : Plan.build s name = .ok p) {d : Dialect} {c : Clauses}
    (quote : isPlain d.quote ∧ ¬ isNameChar d.quote)
    (names : ∀ i ∈ p.identifiers, ∀ part ∈ i.parts, ∀ ch ∈ part.toList, isPlain ch)
    (columns : ∀ column ∈ p.storedColumns, ∀ ch ∈ column.toList, isPlain ch)
    (texts : ∀ f ∈ p.texts c, f.Bindable p c.named) {st : Statement}
    (rendered : p.render d c = .ok st) : st.params = p.values c := by
  obtain ⟨a, ls, -, reads, values, again⟩ :=
    exists_rendered_of_build built quote names columns texts
  cases rendered.symm.trans again
  exact reads.values.symm.trans values

/-- **Every value stands where its marker stood.** When the names of a plan and the quote of the
dialect are plain, and every raw text can be read and bound on its own, rendering succeeds. The
values are those of the pieces in the order of the text, and the placeholders of the statement,
which is the assembled text with its references replaced, count them. -/
theorem Plan.render_numbers {s : Schema} {name : String} {p : Plan}
    (built : Plan.build s name = .ok p) {d : Dialect} {c : Clauses}
    (quote : isPlain d.quote ∧ ¬ isNameChar d.quote)
    (names : ∀ i ∈ p.identifiers, ∀ part ∈ i.parts, ∀ ch ∈ part.toList, isPlain ch)
    (columns : ∀ column ∈ p.storedColumns, ∀ ch ∈ column.toList, isPlain ch)
    (texts : ∀ f ∈ p.texts c, f.Bindable p c.named) :
    ∃ a ls st, p.assemble d c = .ok a ∧ lexemes a.text.toList = .ok ls ∧
      p.render d c = .ok st ∧ st.params = p.values c ∧
      st.Numbers d c.named a.params (spelled (p.targetChars d) ls) := by
  obtain ⟨a, ls, assembled, reads, values, rendered⟩ :=
    exists_rendered_of_build built quote names columns texts
  have numbers := numbers_of_binds (d := d) (binds_spelled_iff (f := p.targetChars d).mpr reads.binds)
  rw [markerValues_spelled] at numbers
  exact ⟨a, ls, _, assembled, reads.read, rendered, reads.values.symm.trans values, numbers⟩

/-- Vehicles of several kinds in one table. What a truck carries is a text with a named marker. -/
def fleet : Schema where
  sources := [⟨.runtime, [
    { name := "Vehicle", table := some ⟨none, "vehicle"⟩, discriminator := some "kind",
      subclasses := ["Truck"],
      fields := [{ name := "plate", type := .value .text, attrs := { id := some true } }] },
    { name := "Truck", superclass := some "Vehicle", discriminatorValue := some "truck",
      fields := [
        { name := "cargo", type := .value .text,
          attrs := { sql := some "COALESCE(\x7bthis.cargo\x7d, :empty)" } }] }]⟩]

/-- The trucks with some plates. -/
def somePlates : Clauses where
  filters := [⟨"\x7bvehicle.plate\x7d BETWEEN ? AND ?", [.text "A", .text "M"]⟩]
  named := [("empty", .text "-")]

theorem render_numbers_fleet : ∃ p, Plan.build fleet "Truck" = .ok p ∧
    (p.values somePlates).map (·.text?) = [some "-", some "truck", some "A", some "M"] ∧
    ∃ a ls st, p.assemble .postgres somePlates = .ok a ∧ lexemes a.text.toList = .ok ls ∧
      p.render .postgres somePlates = .ok st ∧ st.params = p.values somePlates ∧
      st.Numbers .postgres somePlates.named a.params (spelled (p.targetChars .postgres) ls) := by
  obtain ⟨p, built, found⟩ := ok_of_map (x := Plan.build fleet "Truck")
    (f := fun p => ((p.values somePlates).map (·.text?),
      p.identifiers.all fun i => i.parts.all fun part => part.toList.all isPlain,
      p.storedColumns.all fun column => column.toList.all isPlain,
      decide (∀ f ∈ p.texts somePlates, f.Bindable p somePlates.named)))
    (b := ([some "-", some "truck", some "A", some "M"], true, true, true))
    (by decide +kernel)
  obtain ⟨values, names, columns, texts⟩ : _ ∧ _ ∧ _ ∧ _ := by simpa using found
  exact ⟨p, built, values, render_numbers built (by decide) names columns texts⟩

end Orm
