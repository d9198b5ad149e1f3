import Orm.Proofs.Schema.Layers
import Orm.Proofs.Sql.Truth
import Orm.Proofs.Statement.Lines
import Orm.Proofs.Statement.WrittenOut

/-!
# `Proofs.Statement.Restriction` — limits behind conditions

A relation to a type that is not the base of its hierarchy joins the rows of that type and of its
descendants only, so the clause of the join ends with a limit on the discriminator. Where a field
declares a condition of its own, the limit stands behind it with `AND` between them, and no
parentheses around the condition. The database then reads the limit as a term of the last
alternative: rows that an earlier alternative is true of are not limited.

## Contents
- **Aliases.** `Alias.IsLimited`, `isLimited_of_build`, `restriction_of_layout`, `join_of_build`.
- **Clauses.** `Plan.HasClause`, `exists_clause_of_build`.
- **Limits.** `exists_read_limit`.
- **The theorem.** `Plan.limited_join_iff`.
-/

namespace Orm

open Text Sql Plan Schema

/-! ## Aliases -/

namespace Plan

/-- The limit on an entity's table is the one of its layout. -/
def Alias.IsLimited (s : Schema) (a : Alias) : Prop :=
  ∀ type, a.role = .entity type → ∃ layout, s.layout type = .ok layout ∧
    ∀ j, a.join = some j → j.restriction = entityRestriction a.path layout

/-- All tables of a draft are limited by their layouts. -/
def Draft.IsLimited (s : Schema) (d : Draft) : Prop :=
  ∀ a ∈ d.aliases, a.IsLimited s

namespace Draft.IsLimited

variable {s : Schema} {d : Draft}

theorem registering (h : d.IsLimited s) (path fieldPath column : String) :
    (d.registering path fieldPath column).IsLimited s := by
  intro a ha
  obtain ⟨b, hb, rfl⟩ := List.mem_map.mp ha
  have limited := h b hb
  unfold Alias.withColumn
  split_ifs <;> exact limited

theorem withAliases (h : d.IsLimited s) {as : List Alias} (new : ∀ a ∈ as, a.IsLimited s) :
    (d.withAliases as).IsLimited s := fun a ha =>
  (List.mem_append.mp ha).elim (h a) (new a)

theorem withKeys (h : d.IsLimited s) (path : String) (ids : List FieldModel) :
    (d.withKeys path ids).IsLimited s := by
  induction ids generalizing d with
  | nil => exact h
  | cons id rest ih => exact ih (registering (d := d.selecting _ _) h path id.name id.column)

theorem opened (h : d.IsLimited s) {path : String} {layout : Layout}
    (lays : s.layout layout.declared = .ok layout) (attachment : Option Attachment) :
    (d.opened path layout attachment).IsLimited s := by
  refine withAliases (d := d.limiting path layout attachment) h fun a ha => ?_
  rcases List.mem_cons.mp ha with rfl | beside
  · intro type role
    cases role
    refine ⟨layout, lays, fun j joined => ?_⟩
    obtain ⟨at_, -, rfl⟩ := Option.map_eq_some_iff.mp joined
    rfl
  · obtain ⟨p, -, rfl⟩ := List.mem_map.mp beside
    exact fun type role => nomatch role

theorem linked {d' : Draft} (h : d.IsLimited s) {scope : Scope} {f : FieldModel}
    (linked : Linked scope f d d') : d'.IsLimited s := by
  unfold Linked at linked
  split at linked
  next =>
    obtain ⟨a, made, -, rfl⟩ := linked
    obtain ⟨id, -, result⟩ := ok_bind.mp made
    cases result
    refine h.withAliases fun a ha => ?_
    obtain rfl := List.mem_singleton.mp ha
    exact fun type role => nomatch role
  next =>
    rw [linked]
    exact h

end Draft.IsLimited

/-- The layout that a part of the walk is given is that of its type. -/
def Task.IsLaid (s : Schema) : Task → Prop
  | .entity _ _ _ layout _ => s.layout layout.declared = .ok layout
  | _ => True

/-- **Every table that the walk adds is limited by its layout.** -/
theorem Derives.isLimited {s : Schema} {t : Task} {d d' : Draft} {m : Members}
    {asked : List SelectItem} (h : Derives s t d m asked d') (laid : t.IsLaid s)
    (before : d.IsLimited s) : d'.IsLimited s := by
  induction h with
  | key => exact before
  | column => exact Draft.IsLimited.registering before _ _ _
  | computed => exact before
  | embedded _ _ _ _ ih => exact ih trivial before
  | relation _ describes _ lays linked _ _ ih =>
    exact ih (layout_declared describes lays) (before.linked linked)
  | done => exact before
  | skip _ _ ih => exact ih trivial before
  | next _ _ _ first rest => exact rest trivial (first trivial before)
  | bottom => exact before
  | level _ _ first rest => exact rest trivial (first trivial (before.withKeys _ _))
  | entity _ _ _ late ih =>
    obtain ⟨joins, groups, rfl⟩ := late_of_addLate late
    exact ih trivial (before.opened laid _)

theorem isLimited_of_build {s : Schema} {name : String} {p : Plan}
    (built : Plan.build s name = .ok p) : ∀ a ∈ p.aliases, a.IsLimited s := by
  obtain ⟨asked, ⟨declared, layout, members, d, described, laid, derived, rfl⟩⟩ :=
    derivation_of_build built
  exact derived.isLimited (layout_declared described laid) fun a none => nomatch none

end Plan

/-- A type below the base of a discriminated hierarchy is limited to its own rows and those of its
descendants. -/
theorem restriction_of_layout {s : Schema} {type base : TypeModel} {layout : Layout}
    (lays : s.layout type = .ok layout)
    (based : type.lineage.find? (·.discriminator.isSome) = some base) (other : base.name ≠ type.name)
    (path : String) : ∃ below, s.descendants type = .ok below ∧ entityRestriction path layout =
      some ⟨⟨path, base.discriminator.getD ""⟩, (type :: below).map (·.registeredName)⟩ := by
  obtain ⟨below, descend, limit⟩ := entityRestriction_of_layout lays based path
  rw [if_neg other] at limit
  exact ⟨below, descend, limit⟩

/-- The table of a relation whose field declares a condition is joined under it, with its owner, its
link table and itself in the place of their short names. It hangs off the owner, unless the link table
stands between them. -/
theorem join_of_build {s : Schema} {name : String} {p : Plan} (built : Plan.build s name = .ok p)
    {a : Alias} (ha : a ∈ p.aliases) {type : TypeModel} (entity : a.role = .entity type)
    {f : FieldModel} {kind : RelationKind} (relation : a.relation = some (f, kind)) {text : String}
    (declared : f.joinCondition = some text) :
    ∃ owner ∈ p.aliases, ∃ raw j, (kind ≠ .toManyLinked → owner.holds j.parent) ∧
      rebase [("this", owner.path), ("linktable", linkPath a.path), (f.name, a.path)] text = .ok raw ∧
        a.join = some j ∧ j.type = .left ∧ j.condition = .raw raw := by
  -- With no other conditions the plan is built again, and its joins come from fields.
  obtain ⟨p', -, both⟩ := build_given built (g := fun _ _ => none) (fun _ _ _ none => nomatch none)
  rcases find?_of_given both a.path with ⟨none, -⟩ | ⟨a₁, a', found, -, same⟩
  · cases none.symm.trans (find?_of_build built a ha)
  obtain rfl : a = a₁ := Option.some.inj ((find?_of_build built a ha).symm.trans found)
  have joins := same.join
  generalize joined : a.join = j, a'.join = j' at joins
  cases joins with
  | same apart =>
    rcases apart with none | link
    · cases none.symm.trans relation
    · cases link.symm.trans entity
  | @related scope f' _ c _ restriction home _ relation' path has _ =>
    obtain ⟨rfl, rfl⟩ := Prod.mk.inj (Option.some.inj (relation.symm.trans relation'))
    obtain ⟨owner, howner, own, holds⟩ := exists_of_mem_homes home
    obtain ⟨raw, made, rfl⟩ := rebase_of_relationCondition declared has
    rw [relationHeads, ← own] at made
    refine ⟨owner, howner, raw, _, fun direct => ?_, made, rfl, rfl, rfl⟩
    simp only [relationJoin, direct, if_false]
    exact holds

/-! ## Clauses -/

/-- A statement has a line that joins a table under a text and a limit. The text is written with its
references replaced and its markers numbered, and the placeholders of the limit stand for the names
that it lists. -/
structure Plan.HasClause (p : Plan) (d : Dialect) (a : Alias) (text : String) (r : Restriction)
    (st : Statement) (own limit : String) : Prop where
  line : ∃ front rest, st.sql = front ++ "\n" ++
    ("LEFT JOIN " ++ tableText d a ++ " ON " ++ (own ++ " AND " ++ limit)) ++ rest ∧
      (rest = "" ∨ ∃ next, rest = "\n" ++ next)
  own : ∃ count ls, lexemes text.toList = .ok ls ∧
    own.toList = filled d count (spelled (p.targetChars d) ls)
  limit : ∃ before after, st.params = before ++ (r.bound ++ after) ∧
    limit = numbered d before.length (restrictionParts d r)

namespace Plan.HasClause

variable {p : Plan} {d : Dialect} {a : Alias} {text : String} {r : Restriction} {st : Statement}
  {own limit : String}

/-- A condition without markers is written as it is, its references apart. -/
theorem own_eq (h : p.HasClause d a text r st own limit) {ls : List Lexeme}
    (lexed : lexemes text.toList = .ok ls) (unmarked : ∀ l ∈ spelled (p.targetChars d) ls, ¬ l.isMarker) :
    own.toList = textOf (spelled (p.targetChars d) ls) := by
  obtain ⟨count, ls', lexed', written⟩ := h.own
  cases lexed.symm.trans lexed'
  exact written.trans (filled_eq_textOf count unmarked)

/-- A limit whose values are the only ones is numbered from the first. -/
theorem limit_eq (h : p.HasClause d a text r st own limit)
    (only : st.params.length = r.values.length) : limit = numbered d 0 (restrictionParts d r) := by
  obtain ⟨before, after, params, written⟩ := h.limit
  rw [params, List.length_append, List.length_append, Restriction.bound, List.length_map] at only
  have first : before.length = 0 := by omega
  rwa [first] at written

end Plan.HasClause

/-- **The clause of a join with a condition of its own and a limit.** -/
theorem exists_clause_of_build {s : Schema} {name : String} {p : Plan}
    (built : Plan.build s name = .ok p) {d : Dialect} {c : Clauses}
    (quote : isPlain d.quote ∧ ¬ isNameChar d.quote)
    (names : ∀ i ∈ p.identifiers, ∀ part ∈ i.parts, ∀ ch ∈ part.toList, isPlain ch)
    (columns : ∀ column ∈ p.storedColumns, ∀ ch ∈ column.toList, isPlain ch)
    (texts : ∀ f ∈ p.texts c, f.Bindable p c.named) {a : Alias} (ha : a ∈ p.aliases) {j : Join}
    (joined : a.join = some j) (type : j.type = .left) {text : String}
    (condition : j.condition = .raw text) {r : Restriction} (limited : j.restriction = some r) :
    ∃ st own limit, p.render d c = .ok st ∧ p.HasClause d a text r st own limit := by
  have limit : p.limitOf a = some r := by
    unfold Plan.limitOf
    rw [joined]
    exact limited
  obtain ⟨st, head, limit, foot, rendered, has⟩ :=
    exists_limit_of_build built quote names columns texts ha limit
  -- nothing stands behind the limit of a join
  have ends : limitFoot c a = .plain "" := by
    unfold limitFoot
    rw [joined]
  have last : foot = "" := by
    have written := has.foot
    rw [ends] at written
    exact written.eq_of_inert (inert_of_all (by decide))
  -- and the text stands between the table and the word in front of the limit
  have starts : limitHead d c a = "LEFT JOIN " ++ tableText d a ++ " ON " ++ text ++ " AND " := by
    unfold limitHead
    rw [joined]
    simp only [type, condition, conditionText, JoinType.keyword]
    rfl
  have table : Inert ("LEFT JOIN " ++ tableText d a ++ " ON ") :=
    inert_joined ((allInert_of_isPlain quote.1 names).of_mem ha) .left
  have raw : Fragment.plain text ∈ a.texts := by
    simp [Alias.texts, joined, condition, Condition.texts]
  have written : p.Writes d ("LEFT JOIN " ++ tableText d a ++ " ON " ++ text ++ " AND ") head :=
    starts ▸ has.head
  obtain ⟨own, rfl, inside⟩ := written.inside table (texts _ (mem_texts_of_table c ha raw))
    (inert_of_all (by decide)) (by decide)
  refine ⟨st, own, limit, rendered, ?_, inside, has.limit⟩
  obtain ⟨front, rest, line, shape⟩ := has.line
  refine ⟨front, rest, ?_, shape⟩
  rw [line, last]
  simp only [String.append_assoc, String.append_empty]

/-! ## Limits -/

section

open Search

/-- A token that the name of a column is written with: a quoted text, or a word with a point in
front. -/
def IsColumnToken (t : Token) : Prop :=
  (∃ text, t = .quoted text) ∨ ∃ text, t = .word ('.' :: text)

theorem isKeyword_point {keyword : String} (h : keyword.toList.head? ≠ some '.') (text : List Char) :
    isKeyword keyword ('.' :: text) = false := by
  apply beq_false_of_ne
  intro same
  rw [← same] at h
  exact h rfl

theorem IsColumnToken.isInner {t : Token} (h : IsColumnToken t) : t.isInner := by
  rcases h with ⟨text, rfl⟩ | ⟨text, rfl⟩
  · rfl
  · have opens : isKeyword "CASE" ('.' :: text) = false := isKeyword_point (by decide) text
    have closes : isKeyword "END" ('.' :: text) = false := isKeyword_point (by decide) text
    simp [Token.isInner, Token.opens?, Token.closes?, opens, closes]

theorem IsColumnToken.not_connective {t : Token} (h : IsColumnToken t) :
    (Item.token t).isConnective = false := by
  rcases h with ⟨text, rfl⟩ | ⟨text, rfl⟩
  · rfl
  · simp only [Item.isConnective, Item.isWord, Bool.or_eq_false_iff]
    refine ⟨⟨⟨?_, ?_⟩, ?_⟩, ?_⟩ <;> exact isKeyword_point (by decide) text

/-- Whether a dialect writes a name of a column so that it is read as one. -/
def Sql.Dialect.WritesName (d : Dialect) (name : String) : Prop :=
  d.quoteNames = true ∨ ∀ ch ∈ name.toList, isWordChar ch

instance (d : Dialect) (name : String) : Decidable (d.WritesName name) :=
  inferInstanceAs (Decidable (_ ∨ _))

/-- A column is read as several tokens, none of which means anything else. -/
theorem exists_tokens_columnText {d : Dialect} (quote : QuotesNames d.quote) {c : ColumnRef}
    (written : d.WritesName c.column) : ∃ ts, tokens (columnText d c).toList = some ts ∧
      2 ≤ ts.length ∧ ∀ t ∈ ts, IsColumnToken t := by
  obtain ⟨text, more, label, quoted⟩ := exists_whole_quoteChars quote c.path.toList
  have labelled : ∀ t ∈ Token.quoted text :: more, IsColumnToken t :=
    List.forall_mem_cons.mpr ⟨.inl ⟨_, rfl⟩, fun t ht => .inl (quoted t ht)⟩
  have point : tokens ".".toList = some [.word ['.']] := rfl
  obtain ⟨ts, name, some, named⟩ : ∃ ts, tokens ("." ++ d.name c.column).toList = some ts ∧
      ts ≠ [] ∧ ∀ t ∈ ts, IsColumnToken t := by
    rw [String.toList_append]
    by_cases quotes : d.quoteNames = true
    · obtain ⟨text', more', name, quoted'⟩ := exists_whole_quoteChars quote c.column.toList
      have quotedName : (d.name c.column).toList = quoteChars d.quote c.column.toList := by
        rw [Dialect.name, if_pos quotes]
        exact String.toList_ofList
      refine ⟨.word ['.'] :: .quoted text' :: more', ?_, by simp, ?_⟩
      · rw [quotedName]
        refine tokens_append point name.tokens fun ch hch => ?_
        obtain rfl : d.quote = ch := Option.some.inj hch
        rcases quote with same | same <;> rw [same] <;> decide
      · exact List.forall_mem_cons.mpr ⟨.inr ⟨_, rfl⟩,
          List.forall_mem_cons.mpr ⟨.inl ⟨_, rfl⟩, fun t ht => .inl (quoted' t ht)⟩⟩
    · have word := written.resolve_left quotes
      refine ⟨[.word ('.' :: c.column.toList)], ?_, by simp, ?_⟩
      · rw [Dialect.name, if_neg quotes]
        exact tokens_word (by simp) (List.forall_mem_cons.mpr ⟨by decide, word⟩)
      · exact List.forall_mem_singleton.mpr (.inr ⟨_, rfl⟩)
  refine ⟨_, ?_, ?_, List.forall_mem_append.mpr ⟨labelled, named⟩⟩
  · rw [columnText, String.append_assoc, String.toList_append]
    show tokens (String.toList (String.ofList (quoteChars _ _)) ++ _) = _
    rw [String.toList_ofList]
    exact label.tokens_append name
  · have one : 0 < ts.length := List.length_pos_iff.mpr some
    simp only [List.length_append, List.length_cons]
    omega

/-- A placeholder is one token. -/
theorem exists_tokens_placeholder (d : Dialect) (n : Nat) :
    ∃ t, tokens (d.placeholderText n).toList = some [t] ∧ t.isInner := by
  unfold Dialect.placeholderText
  cases d.placeholder with
  | question =>
    have mark : tokens "?".toList = some [.sign '?'] := by rfl
    exact ⟨_, mark, rfl⟩
  | dollar =>
    have dollar : isWordChar '$' := by decide
    have word : ∀ ch ∈ '$' :: decimal n, isWordChar ch := by
      refine List.forall_mem_cons.mpr ⟨dollar, fun ch hch => ?_⟩
      have digit := Nat.isDigit_of_mem_toDigits (by decide) (by decide) hch
      simp [isWordChar, Char.isAlphanum, digit]
    refine ⟨.word ('$' :: decimal n), ?_, ?_⟩
    · show tokens ("$" ++ String.ofList (decimal n)).toList = _
      rw [String.toList_append, String.toList_ofList, String.toList_ofList]
      exact tokens_word (List.cons_ne_nil _ _) word
    · rfl

/-- Placeholders with commas between them, and the parenthesis behind them. -/
theorem exists_tokens_marks (d : Dialect) (count : Nat) (values : List String) :
    ∃ ts, tokens (numbered d count (between ", " (values.map fun _ => [.value]) ++
      [.text ")"])).toList = some (ts ++ [.sign ')']) ∧ ∀ t ∈ ts, t.isInner := by
  have close : tokens ")".toList = some [.sign ')'] := by rfl
  have comma : Whole ", ".toList [.sign ','] := by rfl
  have closeApart : isApart ')' := by decide
  have commaApart : isApart ',' := by decide
  induction values generalizing count with
  | nil => exact ⟨[], close, by simp⟩
  | cons first rest ih =>
    obtain ⟨t, here, inner⟩ := exists_tokens_placeholder d (count + 1)
    cases rest with
    | nil =>
      refine ⟨[t], ?_, List.forall_mem_singleton.mpr inner⟩
      show tokens (d.placeholderText (count + 1) ++ ")").toList = _
      rw [String.toList_append]
      exact tokens_append here close (startsWith_apart closeApart (by rfl))
    | cons second more =>
      obtain ⟨ts, later, inners⟩ := ih (count + 1)
      refine ⟨t :: .sign ',' :: ts, ?_, ?_⟩
      · simp only [List.map_cons, between, List.cons_append, List.nil_append, numbered,
          String.toList_append] at later ⊢
        exact tokens_append here (comma.tokens_append later) (startsWith_apart commaApart (by rfl))
      · exact List.forall_mem_cons.mpr ⟨inner, List.forall_mem_cons.mpr ⟨rfl, inners⟩⟩

/-- **A limit is a predicate.** -/
theorem exists_read_limit {d : Dialect} (quote : QuotesNames d.quote) {r : Restriction}
    (written : d.WritesName r.column.column) (count : Nat) :
    ∃ atom, Search.read (numbered d count (restrictionParts d r)) = some atom ∧
      IsPredicate atom := by
  obtain ⟨tc, column, several, columns⟩ := exists_tokens_columnText quote written
  obtain ⟨tm, marks, inner⟩ := exists_tokens_marks d count r.values
  have opens : Whole " IN (".toList [.word "IN".toList, .sign '('] := by rfl
  have space : isApart ' ' := by decide
  have all : tokens (numbered d count (restrictionParts d r)).toList =
      some ((tc ++ [.word "IN".toList]) ++ .sign '(' :: (tm ++ [.sign ')'])) := by
    rw [restrictionParts, List.cons_append, numbered, String.append_assoc, String.toList_append,
      String.toList_append, List.append_assoc]
    exact tokens_append column (opens.tokens_append marks) (startsWith_apart space (by rfl))
  have front : ∀ t ∈ tc ++ [Token.word "IN".toList], t.isInner := List.forall_mem_append.mpr
    ⟨fun t ht => (columns t ht).isInner, List.forall_mem_singleton.mpr (by rfl)⟩
  have values := nest_parentheses (nest_inner inner)
  have apart : ∀ i ∈ [Item.token (.word "IN".toList)] ++ [.group .round (tm.map .token)],
      i.isConnective = false :=
    List.forall_mem_append.mpr ⟨List.forall_mem_singleton.mpr (by decide),
      List.forall_mem_singleton.mpr rfl⟩
  refine ⟨(tc ++ [Token.word "IN".toList]).map .token ++ [.group .round (tm.map .token)], ?_, ?_, ?_⟩
  · unfold Search.read
    rw [all]
    exact nest_append (nest_inner front) values
  · simp only [List.length_append, List.length_map]
    omega
  · rw [List.map_append, List.append_assoc]
    refine List.forall_mem_append.mpr ⟨?_, apart⟩
    intro i hi
    obtain ⟨t, ht, rfl⟩ := List.mem_map.mp hi
    exact (columns t ht).not_connective

/-! ## The theorem -/

/-- **A limit behind a condition limits its last alternative.** The line that joins a relation to a
type below the base of a discriminated hierarchy, under a condition of the field's own, ends with the
limit to the names of that type and its descendants. A row is joined when an alternative of the
condition before the last one is true of it, or when the last one and the limit are. That is what the
condition and the limit say together for the rows that the limit accepts or no earlier alternative
does, and for no others. -/
theorem Plan.limited_join_iff {s : Schema} {name : String} {p : Plan}
    (built : Plan.build s name = .ok p) {d : Dialect} {c : Clauses} (quote : QuotesNames d.quote)
    (names : ∀ i ∈ p.identifiers, ∀ part ∈ i.parts, ∀ ch ∈ part.toList, isPlain ch)
    (columns : ∀ column ∈ p.storedColumns, ∀ ch ∈ column.toList, isPlain ch)
    (texts : ∀ f ∈ p.texts c, f.Bindable p c.named) {a : Alias} (ha : a ∈ p.aliases)
    {type : TypeModel} (entity : a.role = .entity type) {f : FieldModel} {kind : RelationKind}
    (relation : a.relation = some (f, kind)) {text : String}
    (declared : f.joinCondition = some text) {base : TypeModel}
    (based : type.lineage.find? (·.discriminator.isSome) = some base) (other : base.name ≠ type.name)
    (written : d.WritesName (base.discriminator.getD "")) :
    ∃ owner ∈ p.aliases, ∃ raw below st own limit,
      (kind ≠ .toManyLinked → ∃ parent, a.parent? = some parent ∧ owner.holds parent) ∧
      rebase [("this", owner.path), ("linktable", linkPath a.path), (f.name, a.path)] text = .ok raw ∧
      s.descendants type = .ok below ∧ p.render d c = .ok st ∧
      p.HasClause d a raw ⟨⟨a.path, base.discriminator.getD ""⟩,
        (type :: below).map (·.registeredName)⟩ st own limit ∧
      (∃ atom, Search.read limit = some atom ∧ IsPredicate atom) ∧
      (IsCondition own → ∀ v,
        (accepts v (own ++ " AND " ++ limit) ↔
          acceptsEarlier v own ∨ (acceptsLast v own ∧ accepts v limit)) ∧
        ((accepts v (own ++ " AND " ++ limit) ↔ accepts v own ∧ accepts v limit) ↔
          (accepts v limit ∨ ¬ acceptsEarlier v own))) := by
  have plain : isPlain d.quote ∧ ¬ isNameChar d.quote := by
    rcases quote with same | same <;> rw [same] <;> decide
  obtain ⟨owner, howner, raw, j, holds, made, joined, left, condition⟩ :=
    join_of_build built ha entity relation declared
  obtain ⟨layout, lays, restricted⟩ := isLimited_of_build built a ha type entity
  obtain ⟨below, found, limited⟩ := restriction_of_layout lays based other a.path
  obtain ⟨st, own, limit, rendered, clause⟩ := exists_clause_of_build built plain names columns texts
    ha joined left condition ((restricted j joined).trans limited)
  obtain ⟨before, -, -, spelled⟩ := clause.limit
  obtain ⟨atom, reads, predicate⟩ : ∃ atom, Search.read limit = some atom ∧ IsPredicate atom :=
    spelled ▸ exists_read_limit quote written before.length
  have parent : a.parent? = some j.parent := congrArg (Option.map _) joined
  exact ⟨owner, howner, raw, below, st, own, limit, fun direct => ⟨j.parent, parent, holds direct⟩,
    made, found, rendered, clause, ⟨atom, reads, predicate⟩, fun whole v =>
      ⟨accepts_and_iff whole reads predicate, limits_iff whole reads predicate⟩⟩

/-- The trucks of a garage are those that stand in it and those that are shared. -/
def trucksOf (garage : String) : String :=
  "\x7b" ++ garage ++ ".id\x7d = \x7btrucks.garage_id\x7d OR \x7btrucks.shared\x7d = 1"

/-- Garages and their trucks, which are vehicles. -/
def garages : Schema where
  sources := [⟨.runtime, [
    { name := "Garage", table := some ⟨none, "garage"⟩,
      fields := [
        { name := "id", type := .value .int, attrs := { id := some true } },
        { name := "trucks", type := .named "Truck", cardinality := .list,
          attrs := { joinCondition := some (trucksOf "this") } }] },
    { name := "Vehicle", table := some ⟨none, "vehicle"⟩, discriminator := some "kind",
      subclasses := ["Truck"],
      fields := [{ name := "id", type := .value .int, attrs := { id := some true } }] },
    { name := "Truck", superclass := some "Vehicle", discriminatorValue := some "truck" }]⟩]

/-- The condition of the trucks of a garage, as it is written. -/
def trucksText : String :=
  "\x22garage\x22.\x22id\x22 = \x22trucks\x22.\x22garage_id\x22 OR \x22trucks\x22.\x22shared\x22 = 1"

/-- What predicates are true of for a vehicle that is no truck and stands in the garage. -/
def standsInGarage : List Item → Truth
  | .token (.quoted text) :: _ => if text = "\x22garage\x22".toList then .yes else .no
  | _ => .no

/-- A vehicle that stands in a garage is joined to it as one of its trucks. -/
theorem limited_join_iff_garages : ∃ p a st limit, Plan.build garages "Garage" = .ok p ∧
    p.find? "trucks" = some a ∧ p.render .postgres {} = .ok st ∧
    p.HasClause .postgres a (trucksOf "garage") ⟨⟨"trucks", "kind"⟩, ["truck"]⟩ st trucksText limit ∧
    limit = "\x22trucks\x22.\x22kind\x22 IN ($1)" ∧ IsCondition trucksText ∧
    accepts standsInGarage (trucksText ++ " AND " ++ limit) ∧ ¬ accepts standsInGarage limit := by
  -- what the theorem asks for is computed, as are the tables of the relation and the texts
  obtain ⟨p, built, read⟩ := ok_of_map (x := Plan.build garages "Garage")
    (f := fun p => (p.identifiers.all fun i => i.parts.all fun part => part.toList.all isPlain,
      p.storedColumns.all fun column => column.toList.all isPlain,
      decide (∀ f ∈ p.texts {}, f.Bindable p [])))
    (b := (true, true, true)) (by decide +kernel)
  obtain ⟨names, columns, texts⟩ : _ ∧ _ ∧ _ := by simpa using read
  obtain ⟨_, same, tables⟩ := ok_of_map (x := Plan.build garages "Garage")
    (f := fun p => (p.find? "trucks").bind fun a => a.relation.bind fun r => match a.role with
      | .entity type => (type.lineage.find? (·.discriminator.isSome)).bind fun base =>
        if r.1.joinCondition = some (trucksOf "this") ∧ r.2 ≠ .toManyLinked ∧
            a.parent? = some "garage" ∧ base.name ≠ type.name ∧ base.discriminator = some "kind" ∧
            (garages.descendants type).toOption.map (fun ts => (type :: ts).map (·.registeredName)) =
              some ["truck"] ∧
            ∀ owner ∈ p.aliases, owner.holds "garage" → (rebase [("this", owner.path),
              ("linktable", linkPath a.path), (r.1.name, a.path)] (trucksOf "this")).toOption =
                some (trucksOf "garage")
        then some () else none
      | _ => none)
    (b := some ()) (by decide +kernel)
  cases built.symm.trans same
  obtain ⟨_, same, written⟩ := ok_of_map (x := Plan.build garages "Garage")
    (f := fun p => ((p.values {}).length, (lexemes (trucksOf "garage").toList).toOption.map fun ls =>
      (decide (∀ l ∈ spelled (p.targetChars .postgres) ls, ¬ l.isMarker),
        textOf (spelled (p.targetChars .postgres) ls))))
    (b := (1, some (true, trucksText.toList))) (by decide +kernel)
  cases built.symm.trans same
  obtain ⟨count, spelling⟩ := Prod.mk.inj written
  obtain ⟨a, found, rest⟩ := Option.bind_eq_some_iff.mp tables
  obtain ⟨⟨f, kind⟩, relation, rest⟩ := Option.bind_eq_some_iff.mp rest
  split at rest
  next type entity =>
    obtain ⟨base, based, rest⟩ := Option.bind_eq_some_iff.mp rest
    split at rest
    next fits =>
      obtain ⟨declared, direct, parent, other, column, listed, owners⟩ := fits
      obtain ⟨ha, path⟩ := path_of_find? found
      obtain ⟨owner, howner, raw, below, st, own, limit, hangs, made, known, rendered, clause, -,
        means⟩ := Plan.limited_join_iff built (d := .postgres) (c := {}) (by decide) names columns
          texts ha entity relation declared based other (.inl rfl)
      -- the owner is the garage, and the limit is to trucks
      obtain ⟨_, parent', holds⟩ := hangs direct
      cases parent.symm.trans parent'
      have reference := owners owner howner holds
      rw [made] at reference
      cases reference
      rw [known] at listed
      have limited : (type :: below).map (·.registeredName) = ["truck"] := Option.some.inj listed
      rw [path, column, limited] at clause
      -- the condition is without markers, and the value of the limit is the only one
      obtain ⟨ls, lexed, text⟩ := ok_of_map spelling
      obtain ⟨unmarked, text⟩ := Prod.mk.inj text
      cases String.toList_inj.mp
        ((clause.own_eq lexed (of_decide_eq_true unmarked)).trans text)
      have params := params_of_render built (by decide) names columns texts rendered
      have only := clause.limit_eq ((congrArg List.length params).trans count)
      subst only
      have whole : IsCondition trucksText := ⟨_, by rfl, fun v => by rfl⟩
      refine ⟨p, a, _, _, built, found, rendered, clause, by rfl, whole, ?_, ?_⟩
      · exact (means whole standsInGarage).1.mpr (.inl ⟨_, by rfl, by decide⟩)
      · rintro ⟨items, read, yes⟩
        cases read
        cases yes
    next => cases rest
  next => cases rest

end

end Orm
