import Mathlib.Data.List.SplitBy
import Orm.Assembly.Basic

/-!
# `Proofs.Assembly.Runs` — rows in runs of one root key

A stream hands out one graph for each run of rows about one root. This module says what the runs of
some rows are, without a stream: rows without a root key are left out, and what is left is cut
wherever the key changes. A key that comes back later begins a run of its own.

The last run stays open: rows that come after it go on from it, and all runs before it stay as they
are (`exists_open_run`). This is what a stream counts on.

## Contents
- **Runs.** `Entity.keyIn`, `Entity.keyed`, `Entity.runs`, `Entity.Shares`.
- **Row by row.** `runs_skip`, `runs_of_shares`, `runs_close`, `runs_extend`.
- **As a whole.** `flatten_runs`, `shares_of_mem_runs`, `exists_open_run`.
-/

namespace Orm.Plan.Entity

/-! ## Runs -/

/-- The root key of a row. -/
def keyIn (root : Entity) (row : Row) : Option Key :=
  keyOf? root.head root.members row

/-- The rows that have a root key. -/
def keyed (root : Entity) (rows : List Row) : List Row :=
  rows.filter fun row => (root.keyIn row).isSome

/-- The maximal runs of consecutive rows with one root key. Rows without a root key are left out, so
they do not break a run. -/
def runs (root : Entity) (rows : List Row) : List (List Row) :=
  (root.keyed rows).splitBy fun a b => root.keyIn a == root.keyIn b

/-- Some rows are about the root with a key. -/
def Shares (root : Entity) (key : Key) (run : List Row) : Prop :=
  ∀ row ∈ run, root.keyIn row = some key

variable {root : Entity} {row : Row} {rows run rest : List Row} {key key' : Key}

theorem keyed_append (rows rest : List Row) :
    root.keyed (rows ++ rest) = root.keyed rows ++ root.keyed rest :=
  List.filter_append rows rest

theorem keyed_cons (present : root.keyIn row = some key) (rest : List Row) :
    root.keyed (row :: rest) = row :: root.keyed rest :=
  List.filter_cons_of_pos (by rw [present]; rfl)

/-- Rows about one root all have a root key. -/
theorem Shares.keyed (shares : root.Shares key run) : root.keyed run = run := by
  apply List.filter_eq_self.mpr
  intro row mem
  rw [shares row mem]
  rfl

theorem Shares.concat (shares : root.Shares key run) (present : root.keyIn row = some key) :
    root.Shares key (run ++ [row]) := by
  intro row' mem
  rcases List.mem_append.mp mem with old | new
  · exact shares row' old
  · rw [List.mem_singleton.mp new]
    exact present

theorem shares_singleton (present : root.keyIn row = some key) : root.Shares key [row] := by
  intro row' mem
  rw [List.mem_singleton.mp mem]
  exact present

/-- Rows about one root are not cut anywhere. -/
theorem Shares.isChain (shares : root.Shares key run) :
    run.IsChain fun a b => (root.keyIn a == root.keyIn b) = true := by
  apply List.Pairwise.isChain
  apply List.pairwise_of_forall_mem_list
  intro a ha b hb
  rw [shares a ha, shares b hb]
  exact beq_self_eq_true _

/-! ## Row by row -/

@[simp]
theorem runs_nil (root : Entity) : root.runs [] = [] := rfl

/-- **A row without a root key does not break a run.** -/
theorem runs_skip (absent : root.keyIn row = none) (rows rest : List Row) :
    root.runs (rows ++ row :: rest) = root.runs (rows ++ rest) := by
  have dropped : root.keyed (row :: rest) = root.keyed rest :=
    List.filter_cons_of_neg (by rw [absent]; exact Bool.false_ne_true)
  unfold runs
  rw [keyed_append, keyed_append, dropped]

/-- Rows about one root are one run. -/
theorem runs_of_shares (shares : root.Shares key run) (nonempty : run ≠ []) :
    root.runs run = [run] := by
  unfold runs
  rw [shares.keyed]
  exact List.splitBy_of_isChain nonempty shares.isChain

/-- **A row with another root key closes a run.** -/
theorem runs_close (shares : root.Shares key run) (nonempty : run ≠ [])
    (present : root.keyIn row = some key') (other : key ≠ key') (rest : List Row) :
    root.runs (run ++ row :: rest) = run :: root.runs (row :: rest) := by
  have cut : ∀ last ∈ run.getLast?, (root.keyIn last == root.keyIn row) = false := by
    intro last mem
    rw [shares last (List.mem_of_getLast? mem), present]
    exact beq_false_of_ne fun same => other (Option.some.inj same)
  have alone := runs_of_shares shares nonempty
  unfold runs at alone ⊢
  rw [keyed_append, keyed_cons present, List.splitBy_append_cons _ (shares.keyed.symm ▸ cut), alone]
  rfl

/-- **Rows after a run go on from it.** -/
theorem runs_extend (shares : root.Shares key run) (nonempty : run ≠ []) (rest : List Row) :
    ∃ more others, root.runs (run ++ rest) = (run ++ more) :: others := by
  induction rest generalizing run with
  | nil =>
    refine ⟨[], [], ?_⟩
    rw [List.append_nil, runs_of_shares shares nonempty]
  | cons row rest ih =>
    cases present : root.keyIn row with
    | none =>
      rw [runs_skip present]
      exact ih shares nonempty
    | some key' =>
      by_cases same : key = key'
      case neg =>
        refine ⟨[], root.runs (row :: rest), ?_⟩
        rw [runs_close shares nonempty present same, List.append_nil]
      subst same
      have longer : run ++ [row] ≠ [] := List.append_ne_nil_of_right_ne_nil run nofun
      obtain ⟨more, others, split⟩ := ih (shares.concat present) longer
      refine ⟨row :: more, others, ?_⟩
      rw [List.append_assoc, List.append_assoc] at split
      exact split

/-! ## As a whole -/

/-- The runs are made of the rows that have a root key. -/
theorem flatten_runs (root : Entity) (rows : List Row) : (root.runs rows).flatten = root.keyed rows :=
  List.flatten_splitBy _ _

/-- Every run has a row, and all its rows are about one root. -/
theorem shares_of_mem_runs (mem : run ∈ root.runs rows) :
    run ≠ [] ∧ ∃ key, root.Shares key run := by
  have nonempty : run ≠ [] := List.ne_nil_of_mem_splitBy mem
  have chain : run.IsChain fun a b => (root.keyIn a == root.keyIn b) = true :=
    List.isChain_of_mem_splitBy mem
  have present : ∀ row ∈ run, (root.keyIn row).isSome = true := by
    intro row hr
    have inside : row ∈ (root.runs rows).flatten := List.mem_flatten.mpr ⟨run, mem, hr⟩
    rw [flatten_runs] at inside
    exact (List.mem_filter.mp inside).2
  refine ⟨nonempty, ?_⟩
  obtain ⟨first, others, rfl⟩ := List.exists_cons_of_ne_nil nonempty
  obtain ⟨key, first_key⟩ := Option.isSome_iff_exists.mp (present first List.mem_cons_self)
  refine ⟨key, ?_⟩
  -- the key is handed on from each row to the next
  have same : (first :: others).IsChain fun a b => root.keyIn a = root.keyIn b :=
    chain.imp fun a b h => eq_of_beq h
  have all := List.isChain_iff_pairwise.mp same
  intro row hr
  rcases List.mem_cons.mp hr with rfl | later
  · exact first_key
  · rw [← (List.pairwise_cons.mp all).1 row later]
    exact first_key

/-- **The last run is open.** What comes after some rows goes on from their last run, and the runs
before it are closed. -/
theorem exists_open_run (root : Entity) (rows : List Row) :
    ∃ closed run, (run = [] → closed = []) ∧ (∃ key, root.Shares key run) ∧
      ∀ more, root.runs (rows ++ more) = closed ++ root.runs (run ++ more) := by
  have along : ∀ rest run : List Row, (∃ key, root.Shares key run) →
      ∃ closed run', (run' = [] → closed = []) ∧ (∃ key, root.Shares key run') ∧
        ∀ more, root.runs (run ++ (rest ++ more)) = closed ++ root.runs (run' ++ more) := by
    intro rest
    induction rest with
    | nil => exact fun run shares => ⟨[], run, fun _ => rfl, shares, fun more => rfl⟩
    | cons row rest ih =>
      rintro run ⟨key, shares⟩
      cases present : root.keyIn row with
      | none =>
        obtain ⟨closed, run', first, shares', split⟩ := ih run ⟨key, shares⟩
        exact ⟨closed, run', first, shares', fun more => (runs_skip present run _).trans (split more)⟩
      | some key' =>
        by_cases goes_on : run = [] ∨ key = key'
        case pos =>
          have shares' : root.Shares key' (run ++ [row]) := by
            rcases goes_on with rfl | rfl
            · exact shares_singleton present
            · exact shares.concat present
          obtain ⟨closed, run', first, shares', split⟩ := ih (run ++ [row]) ⟨key', shares'⟩
          refine ⟨closed, run', first, shares', fun more => ?_⟩
          rw [← split more, List.append_assoc, List.singleton_append, List.cons_append]
        rw [not_or] at goes_on
        obtain ⟨closed, run', first, shares', split⟩ := ih [row] ⟨key', shares_singleton present⟩
        refine ⟨run :: closed, run', ?_, shares', fun more => ?_⟩
        · -- the row stands in a run, so there is one after the run that it closes
          intro empty
          have none := split []
          rw [first empty, empty] at none
          have lost := congrArg List.flatten none
          rw [List.singleton_append, flatten_runs, keyed_cons present] at lost
          cases lost
        · rw [List.cons_append, runs_close shares goes_on.1 present goes_on.2, List.cons_append,
            ← split more]
          rfl
  exact along rows [] ⟨⟨[]⟩, fun _ h => absurd h List.not_mem_nil⟩

end Orm.Plan.Entity
