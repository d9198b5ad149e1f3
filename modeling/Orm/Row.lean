import Orm.Value.Basic

/-!
# `Orm.Row` — result rows addressed by label

A row pairs the labels of its columns with values. Labels that stand twice address the last of
their columns; columns without a value are NULL.

## Contents
- **Columns.** `columnPosition?`.
- **Rows.** `Row`, `Row.ofPairs`, `get?`, `getOrNull`, `items`.
-/

namespace Orm

/-! ## Columns -/

/-- The position of the last column with a label. -/
def columnPosition? (label : String) : List String → Option Nat
  | [] => none
  | other :: rest =>
    match columnPosition? label rest with
    | some i => some (i + 1)
    | none => if other = label then some 0 else none

/-- A label has a position exactly when it stands somewhere. -/
theorem columnPosition?_isSome_iff {label : String} {labels : List String} :
    (columnPosition? label labels).isSome ↔ label ∈ labels := by
  induction labels with
  | nil => simp [columnPosition?]
  | cons other rest ih =>
    simp only [columnPosition?, List.mem_cons]
    cases h : columnPosition? label rest with
    | some i =>
      rw [h] at ih
      simp [ih.1 rfl]
    | none =>
      rw [h] at ih
      have absent : label ∉ rest := by simpa using ih
      by_cases ho : other = label
      · simp [ho]
      · simp [ho, Ne.symm ho, absent]

theorem columnPosition?_eq_none {label : String} {labels : List String} (h : label ∉ labels) :
    columnPosition? label labels = none := by
  rw [← Option.not_isSome_iff_eq_none, columnPosition?_isSome_iff]
  exact h

/-- A label that stands again further on is addressed there. -/
theorem columnPosition?_cons_of_mem {label other : String} {labels : List String} (h : label ∈ labels) :
    columnPosition? label (other :: labels) = (columnPosition? label labels).map (· + 1) := by
  obtain ⟨i, found⟩ := Option.isSome_iff_exists.mp (columnPosition?_isSome_iff.mpr h)
  simp only [columnPosition?, found, Option.map_some]

theorem columnPosition?_cons_self {label : String} {labels : List String} (h : label ∉ labels) :
    columnPosition? label (label :: labels) = some 0 := by
  simp only [columnPosition?, columnPosition?_eq_none h, if_true]

/-! ## Rows -/

/-- One row of a result. -/
structure Row where
  labels : List String
  values : List Value

namespace Row

/-- The row with the given labels and values. -/
def ofPairs (pairs : List (String × Value)) : Row :=
  ⟨pairs.map (·.1), pairs.map (·.2)⟩

/-- The value at a position; NULL where the row is too short. -/
def valueAt (row : Row) (position : Nat) : Value :=
  row.values.getD position .null

/-- The value under a label, if the row has it. -/
def get? (row : Row) (label : String) : Option Value :=
  (columnPosition? label row.labels).map row.valueAt

/-- The value under a label; NULL if the row does not have it. -/
def getOrNull (row : Row) (label : String) : Value :=
  (row.get? label).getD .null

/-- The labels with their values, in the order of the columns. -/
def items (row : Row) : List (String × Value) :=
  row.labels.mapIdx fun i label => (label, row.valueAt i)

/-- A label the row does not have reads as NULL. -/
theorem getOrNull_of_not_mem {row : Row} {label : String} (h : label ∉ row.labels) :
    row.getOrNull label = .null := by
  simp [getOrNull, get?, columnPosition?_eq_none h]

/-- A row of labels that stand once each reads as the pairs that it is made of. -/
theorem getOrNull_ofPairs {pairs : List (String × Value)} (distinct : (pairs.map (·.1)).Nodup)
    {label : String} {value : Value} (h : (label, value) ∈ pairs) :
    (ofPairs pairs).getOrNull label = value := by
  induction pairs with
  | nil => cases h
  | cons pair rest ih =>
    obtain ⟨fresh, distinct⟩ := List.nodup_cons.mp distinct
    rcases List.mem_cons.mp h with rfl | later
    · simp [getOrNull, get?, ofPairs, columnPosition?_cons_self fresh, valueAt]
    · have listed : label ∈ rest.map (·.1) := List.mem_map_of_mem later
      rw [← ih distinct later]
      simp only [getOrNull, get?, ofPairs, List.map_cons, columnPosition?_cons_of_mem listed,
        Option.map_map]
      rfl

end Row

end Orm
