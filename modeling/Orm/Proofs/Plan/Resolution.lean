import Orm.Plan.Resolve

/-!
# `Proofs.Plan.Resolution` — what references stand for

A reference is the path of a table, or it is split at one of its points: what stands before the point is
the path of a table, and what stands behind it is looked for in the table. Of several such splits the
last one counts. So a field of a table is found under its own name behind the path of the table, unless
the reference can also be split behind a longer path.

## Contents
- **Splits.** `toList_point`, `splitsAt_append`, `splitsAt_eq_nil`.
- **Targets.** `Plan.storedColumns`, `path_of_find?`, `target_of_resolve?`.
- **Fields.** `Plan.Longest`, `resolveSplit?_append`, `resolve?_of_stored`.
-/

namespace Orm

open Text Sql Plan

/-! ## Splits -/

theorem toList_point (path column : String) :
    (path ++ "." ++ column).toList = path.toList ++ '.' :: column.toList := by
  simp [String.toList_append]

/-- The ways to split a text around a mark in it: first those before the mark, then the mark itself, and
then those behind it. -/
theorem splitsAt_append (mark : Char) (before after : List Char) :
    ∃ earlier, splitsAt mark (before ++ mark :: after) = earlier ++ (before, after) ::
      (splitsAt mark after).map fun split => (before ++ mark :: split.1, split.2) := by
  induction before with
  | nil => exact ⟨[], by simp [splitsAt]⟩
  | cons c rest ih =>
    obtain ⟨earlier, splits⟩ := ih
    by_cases hc : c = mark
    · exact ⟨([], rest ++ mark :: after) :: earlier.map fun p => (c :: p.1, p.2),
        by simp [splitsAt, hc, splits]⟩
    · exact ⟨earlier.map fun p => (c :: p.1, p.2), by simp [splitsAt, hc, splits]⟩

theorem splitsAt_eq_nil {mark : Char} {text : List Char} (h : mark ∉ text) : splitsAt mark text = [] := by
  refine List.eq_nil_iff_forall_not_mem.mpr ?_
  rintro ⟨before, after⟩ split
  rw [mem_splitsAt] at split
  exact h (by simp [split])

/-! ## Targets -/

variable {p : Plan}

/-- The columns that the fields of a plan are stored in. -/
def Plan.storedColumns (p : Plan) : List String :=
  p.aliases.flatMap fun a => a.columns.map (·.2)

theorem path_of_find? {path : String} {a : Alias} (h : p.find? path = some a) :
    a ∈ p.aliases ∧ a.path = path :=
  ⟨List.mem_of_find?_eq_some h, by simpa using List.find?_some h⟩

theorem mem_storedColumns {a : Alias} (ha : a ∈ p.aliases) {field column : String}
    (h : a.column? field = some column) : column ∈ p.storedColumns := by
  obtain ⟨front, rest, columns, -⟩ := List.lookup_eq_some_iff.mp h
  exact List.mem_flatMap.mpr ⟨a, ha, List.mem_map.mpr ⟨(field, column), by simp [columns], rfl⟩⟩

/-- A field of an alias is a column of the alias or of another level. -/
theorem mem_of_columnOf? {a : Alias} (ha : a ∈ p.aliases) {field : String} {t : Target}
    (h : p.columnOf? a field = some t) :
    ∃ b ∈ p.aliases, ∃ column ∈ p.storedColumns, t = .column b.path column := by
  unfold columnOf? at h
  split at h
  · next column found =>
    cases h
    exact ⟨a, ha, column, mem_storedColumns ha found, rfl⟩
  · obtain ⟨level, -, found⟩ := List.exists_of_findSome?_eq_some h
    obtain ⟨b, hb, stored⟩ := Option.bind_eq_some_iff.mp found
    obtain ⟨column, hcolumn, rfl⟩ := Option.map_eq_some_iff.mp stored
    obtain ⟨placed, rfl⟩ := path_of_find? hb
    exact ⟨b, placed, column, mem_storedColumns placed hcolumn, rfl⟩

/-- A reference stands for an alias, or for an alias and one of the stored columns or what the
reference itself ends with. -/
theorem target_of_resolve? {name : String} {t : Target} (h : p.resolve? name = some t) :
    ∃ a ∈ p.aliases, t = .table a.path ∨ ∃ column, t = .column a.path column ∧
      (column ∈ p.storedColumns ∨ ∀ ch ∈ column.toList, ch ∈ name.toList) := by
  -- The reference is the path of an alias, or one of its splits names a column behind an alias.
  unfold resolve? at h
  split at h
  · next a found =>
    obtain ⟨placed, rfl⟩ := path_of_find? found
    exact ⟨a, placed, .inl (Option.some.inj h).symm⟩
  · have ends : ∀ split ∈ (splitsAt '.' name.toList).reverse, ∀ ch ∈ split.2, ch ∈ name.toList := by
      intro split hsplit ch hch
      have whole := mem_splitsAt.mp (List.mem_reverse.mp hsplit)
      rw [whole]
      simp [hch]
    -- The splits are tried in turn; whichever is taken, what it ends with is the end of the name.
    revert h ends
    generalize (splitsAt '.' name.toList).reverse = splits
    intro h ends
    induction splits with
    | nil => cases h
    | cons split more ih =>
      obtain ⟨front, rest⟩ := split
      simp only [resolveSplit?] at h
      split at h
      · next a found =>
        obtain ⟨placed, -⟩ := path_of_find? found
        unfold fieldTarget? at h
        split at h
        · next t' column =>
          cases h
          obtain ⟨b, hb, column', stored, rfl⟩ := mem_of_columnOf? placed column
          exact ⟨b, hb, .inr ⟨column', rfl, .inl stored⟩⟩
        · split at h
          · cases h
          · refine ⟨a, placed, .inr ⟨String.ofList rest, (Option.some.inj h).symm, .inr ?_⟩⟩
            rw [String.toList_ofList]
            exact ends _ List.mem_cons_self
      · exact ih h fun split hs => ends split (List.mem_cons_of_mem _ hs)

/-! ## Fields -/

/-- No table has a reference as its path, and none has a path that the reference begins with, before a
point, and that is longer than some path. -/
def Plan.Longest (p : Plan) (path reference : String) : Prop :=
  ∀ a ∈ p.aliases, a.path ≠ reference ∧
    ∀ rest, reference = a.path ++ "." ++ rest → a.path.length ≤ path.length

theorem longest_iff {path reference : String} : p.Longest path reference ↔ ∀ a ∈ p.aliases,
    a.path ≠ reference ∧ ((a.path ++ ".").toList <+: reference.toList → a.path.length ≤ path.length) := by
  refine forall₂_congr fun a _ => and_congr_right fun _ => ⟨fun longest => ?_, fun longest rest same => ?_⟩
  · rintro ⟨rest, same⟩
    refine longest (String.ofList rest) (String.toList_inj.mp ?_)
    rw [String.toList_append, String.toList_ofList]
    exact same.symm
  · refine longest ?_
    rw [same, String.toList_append (s := a.path ++ ".")]
    exact List.prefix_append _ _

instance {path reference : String} : Decidable (p.Longest path reference) :=
  decidable_of_iff _ longest_iff.symm

/-- Splits whose fronts are no tables are passed over. -/
theorem resolveSplit?_append {splits more : List (List Char × List Char)}
    (none : ∀ split ∈ splits, p.find? (String.ofList split.1) = none) :
    p.resolveSplit? (splits ++ more) = p.resolveSplit? more := by
  induction splits with
  | nil => rfl
  | cons split rest ih =>
    obtain ⟨here, later⟩ := List.forall_mem_cons.mp none
    obtain ⟨front, behind⟩ := split
    rw [List.cons_append, resolveSplit?, here]
    exact ih later

/-- **A field of a table is found by its own name behind the path of the table**, if no longer part of
the reference is the path of a table, and the reference itself is not. -/
theorem resolve?_of_stored {a : Alias} (found : p.find? a.path = some a) {field column : String}
    (stored : a.column? field = some column) (longest : p.Longest a.path (a.path ++ "." ++ field)) :
    p.resolve? (a.path ++ "." ++ field) = some (.column a.path column) := by
  have whole : p.find? (a.path ++ "." ++ field) = none := by
    refine Option.eq_none_iff_forall_ne_some.mpr fun b there => ?_
    obtain ⟨placed, same⟩ := path_of_find? there
    exact (longest b placed).1 same
  obtain ⟨earlier, splits⟩ := splitsAt_append '.' a.path.toList field.toList
  have beyond : ∀ split ∈ ((splitsAt '.' field.toList).map fun split =>
      (a.path.toList ++ '.' :: split.1, split.2)).reverse, p.find? (String.ofList split.1) = none := by
    intro split mem
    obtain ⟨⟨front, rest⟩, inside, rfl⟩ := List.mem_map.mp (List.mem_reverse.mp mem)
    refine Option.eq_none_iff_forall_ne_some.mpr fun b there => ?_
    obtain ⟨placed, same⟩ := path_of_find? there
    -- such a table would have a path that is longer and still stands before a point
    have pointed : a.path ++ "." ++ field = b.path ++ "." ++ String.ofList rest := by
      apply String.toList_inj.mp
      rw [toList_point, toList_point, same, String.toList_ofList, String.toList_ofList,
        mem_splitsAt.mp inside, List.append_assoc, List.cons_append]
    have short := (longest b placed).2 _ pointed
    rw [same, String.length_ofList, List.length_append, List.length_cons, String.length_toList] at short
    omega
  unfold resolve?
  rw [whole, toList_point, splits, List.reverse_append, List.reverse_cons, List.append_assoc]
  dsimp only
  rw [resolveSplit?_append beyond, List.singleton_append, resolveSplit?, String.ofList_toList, found]
  dsimp only
  unfold fieldTarget? columnOf?
  rw [String.ofList_toList, stored]

end Orm
