import Orm.Assembly.Stream
import Orm.Proofs.Assembly.Depiction
import Orm.Proofs.Assembly.Linking
import Orm.Proofs.Assembly.Runs

/-!
# `Proofs.Assembly.Streaming` — what a stream hands out

A stream reads one row after the other and hands out a graph whenever a run of rows is closed. What it
hands out can be told from the runs alone: the graph that the rows of each run are materialized to.
The invariant is `Reads`: what a stream has assembled is what materializing the open run has assembled
so far. One lemma for each thing that a row can do to a stream, and `takes_of_reads` puts them together.

Where the source fails or a row does not fit, the stream stops. The graphs of the runs that were
closed by the rows before are handed out, and not that of the open run; this also holds if the failing
row is the first of a root of its own, and has thus closed the open run.

## Contents
- **Graphs of runs.** `Entity.graphOf`, `addRows_append`, `size_of_graphOf`.
- **Steps.** `take_skip`, `take_grow`, `take_close`, `take_unfit`, `take_source`, `take_end`.
- **Runs of a stream.** `Reads`, `Entity.Fails`, `HandsOut`, `Takes`, `takes_of_reads`,
  `stream_handsOut`, `HandsOut.of_rows`.
- **Main results.** `stream_hands_out_runs`, `stream_stops`.
-/

namespace Orm

open Schema Plan Assembly

/-! ## Graphs of runs -/

/-- The graph that some rows are materialized to. -/
def Plan.Entity.graphOf (s : Schema) (root : Entity) (run : List Row) : Except Error Graph :=
  finish <$> addRows s root {} (run.map .ok)

section

variable {s : Schema} {root : Entity} {es : List Entity} {row : Row} {run more : List Row} {key : Key}
  {a a' : Assembly} {e : Error}

theorem materialize_eq_graphOf {p : Plan} (has_root : p.root = some root) (run : List Row) :
    p.materialize s (run.map .ok) = root.graphOf s run := by
  unfold Plan.materialize
  rw [has_root]
  rfl

/-- Rows are added one batch after the other. -/
theorem addRows_append (xs ys : List (Except Error Row)) (a : Assembly) :
    addRows s root a (xs ++ ys) = addRows s root a xs >>= fun a' => addRows s root a' ys := by
  induction xs generalizing a with
  | nil => rfl
  | cons x rest ih =>
    cases x with
    | error e => rfl
    | ok row =>
      show (a.addRow s root row >>= fun a => addRows s root a (rest ++ ys)) =
        (a.addRow s root row >>= fun a => addRows s root a rest) >>= fun a' => addRows s root a' ys
      cases a.addRow s root row with
      | error e => rfl
      | ok grown => exact ih grown

theorem addRows_cons (row : Row) (rest : List Row) (a : Assembly) :
    addRows s root a ((row :: rest).map .ok) =
      a.addRow s root row >>= fun a' => addRows s root a' (rest.map .ok) := rfl

/-- One more row. -/
theorem addRows_concat (h : addRows s root {} (run.map .ok) = .ok a) (row : Row) :
    addRows s root {} ((run ++ [row]).map .ok) = a.addRow s root row := by
  rw [List.map_append, addRows_append, h]
  show (a.addRow s root row >>= fun a => .ok a) = _
  cases a.addRow s root row <;> rfl

theorem addRows_singleton (row : Row) :
    addRows s root {} ([row].map .ok) = ({} : Assembly).addRow s root row := by
  have nothing : addRows s root {} (([] : List Row).map .ok) = .ok {} := rfl
  exact addRows_concat nothing row

theorem graphOf_eq_ok {g : Graph} :
    root.graphOf s run = .ok g ↔ ∃ a, addRows s root {} (run.map .ok) = .ok a ∧ a.finish = g := by
  unfold Entity.graphOf
  cases addRows s root {} (run.map .ok) with
  | error e => exact ⟨nofun, fun ⟨_, h, _⟩ => nomatch h⟩
  | ok a =>
    constructor
    · intro h
      exact ⟨a, rfl, Except.ok.inj h⟩
    · rintro ⟨a', same, rfl⟩
      cases same
      rfl

theorem graphOf_eq_error :
    root.graphOf s run = .error e ↔ addRows s root {} (run.map .ok) = .error e := by
  unfold Entity.graphOf
  cases addRows s root {} (run.map .ok) with
  | error e' => exact ⟨fun h => congrArg _ (Except.error.inj h), fun h => congrArg _ (Except.error.inj h)⟩
  | ok a => exact ⟨nofun, nofun⟩

/-- Rows that cannot be materialized cannot be with more rows behind them. -/
theorem graphOf_append_error (h : root.graphOf s run = .error e) (more : List Row) :
    root.graphOf s (run ++ more) = .error e := by
  rw [graphOf_eq_error] at h ⊢
  rw [List.map_append, addRows_append, h]
  rfl

/-- The keys of the instances of the root. -/
def rootKeys (a : Assembly) : List Key :=
  a.identities.filterMap fun p => if p.1 = 0 then some p.2 else none

theorem size_finish (a : Assembly) : a.finish.size = (rootKeys a).length := by
  have lengths := congrArg List.length (rootIds_finish a)
  rw [List.length_map, List.length_map] at lengths
  exact lengths

/-- What comes of a row below the root is no root. -/
theorem rootKeys_append_below (wired : Wired s root es) {known more : List (Nat × Key)}
    (below : ∀ p ∈ more, p.1 ∈ root.members.entities.map (·.1.index)) :
    (known ++ more).filterMap (fun p => if p.1 = 0 then some p.2 else none) =
      known.filterMap fun p => if p.1 = 0 then some p.2 else none := by
  have none : more.filterMap (fun p => if p.1 = 0 then some p.2 else none) = [] := by
    apply List.filterMap_eq_nil_iff.mpr
    intro p hp
    have other : p.1 ≠ 0 := fun same =>
      (List.nodup_cons.mp wired.distinct_below).1 (wired.root_index ▸ same ▸ below p hp)
    exact if_neg other
  rw [List.filterMap_append, none, List.append_nil]

/-- **A row adds at most the root that it is about.** -/
theorem rootKeys_of_adds (wired : Wired s root es) (h : Adds s root row a a')
    (present : root.keyIn row = some key) :
    rootKeys a' = if key ∈ rootKeys a then rootKeys a else rootKeys a ++ [key] := by
  have known_iff : key ∈ rootKeys a ↔ (0, key) ∈ a.identities := by
    simp [rootKeys]
  cases h with
  | unkeyed absent => cases absent.symm.trans present
  | keyed present' met relations embedded =>
    cases present'.symm.trans present
    obtain ⟨more₁, grown₁, below₁⟩ := relations.identities
    obtain ⟨more₂, grown₂, below₂⟩ := embedded.identities
    unfold rootKeys at known_iff ⊢
    rw [grown₂, rootKeys_append_below wired below₂, grown₁, rootKeys_append_below wired below₁]
    cases met with
    | known found at_id =>
      have known := List.mem_of_getElem? (identity_of_find? found)
      rw [wired.root_index] at known
      rw [if_pos (known_iff.mpr known)]
    | made absent created =>
      have unknown := find?_eq_none_iff.mp absent
      obtain ⟨entity, key_eq, -⟩ := eq_of_create created
      rw [wired.root_index] at entity unknown
      rw [if_neg fun known => unknown (known_iff.mp known), identities_add, entity, key_eq,
        List.filterMap_append]
      rfl

/-- Rows about one root have one. -/
theorem rootKeys_of_addRows (wired : Wired s root es) (shares : root.Shares key run)
    (start : rootKeys a = [] ∨ rootKeys a = [key]) (nonempty : run ≠ [] ∨ rootKeys a = [key])
    (h : addRows s root a (run.map .ok) = .ok a') : rootKeys a' = [key] := by
  induction run generalizing a with
  | nil =>
    cases h
    exact nonempty.resolve_left fun ne => ne rfl
  | cons row rest ih =>
    rw [addRows_cons] at h
    obtain ⟨a₁, added, later⟩ := ok_bind.mp h
    have here := rootKeys_of_adds wired (addRow_eq_ok_iff.mp added) (shares row List.mem_cons_self)
    have one : rootKeys a₁ = [key] := by
      rw [here]
      rcases start with none | one
      · rw [none]
        exact if_neg List.not_mem_nil
      · rw [one]
        exact if_pos List.mem_cons_self
    exact ih (fun row' mem => shares row' (List.mem_cons_of_mem row mem)) (.inr one) (.inr one) later

/-- **The graph of a run has one root.** -/
theorem size_of_graphOf (wired : Wired s root es) (shares : root.Shares key run) (nonempty : run ≠ [])
    {g : Graph} (h : root.graphOf s run = .ok g) : g.size = 1 := by
  obtain ⟨a, assembled, rfl⟩ := graphOf_eq_ok.mp h
  rw [size_finish, rootKeys_of_addRows wired shares (.inl rfl) (.inl nonempty) assembled]
  rfl

end

/-! ## Steps -/

namespace RootStream

section

variable {s : Schema} {root : Entity} {current : Option Key} {a grown : Assembly} {row : Row}
  {rest : List (Except Error Row)} {key : Key} {e : Error}

/-- A stream that has ended hands out nothing more. -/
theorem take_ended (count : Nat) : ended.take s root count = [] := by
  cases count <;> rfl

/-- A row without a root key is passed over. -/
theorem take_skip (absent : root.keyIn row = none) (count : Nat) :
    (⟨current, a, .ok row :: rest, false⟩ : RootStream).take s root count =
      (⟨current, a, rest, false⟩ : RootStream).take s root count := by
  have absent : keyOf? root.head root.members row = none := absent
  have skipped : (⟨current, a, .ok row :: rest, false⟩ : RootStream).next s root =
      (⟨current, a, rest, false⟩ : RootStream).next s root := by
    show advance s root current a (.ok row :: rest) = advance s root current a rest
    rw [advance, absent]
  cases count with
  | zero => rfl
  | succ count => rw [take, take, skipped]

/-- A row about the root at hand is added to it, and the first row is added to nothing. -/
theorem take_grow (present : root.keyIn row = some key) (open_ : current.any (· != key) = false)
    (added : a.addRow s root row = .ok grown) (count : Nat) :
    (⟨current, a, .ok row :: rest, false⟩ : RootStream).take s root count =
      (⟨some key, grown, rest, false⟩ : RootStream).take s root count := by
  have present : keyOf? root.head root.members row = some key := present
  have grows : (⟨current, a, .ok row :: rest, false⟩ : RootStream).next s root =
      (⟨some key, grown, rest, false⟩ : RootStream).next s root := by
    show advance s root current a (.ok row :: rest) = advance s root (some key) grown rest
    rw [advance, present]
    simp only [open_, Bool.false_eq_true, if_false, added]
  cases count with
  | zero => rfl
  | succ count => rw [take, take, grows]

/-- A row about another root hands out the one before it. -/
theorem take_close (present : root.keyIn row = some key) (closed : current.any (· != key) = true)
    (added : ({} : Assembly).addRow s root row = .ok grown) (count : Nat) :
    (⟨current, a, .ok row :: rest, false⟩ : RootStream).take s root (count + 1) =
      .ok a.finish :: (⟨some key, grown, rest, false⟩ : RootStream).take s root count := by
  have present : keyOf? root.head root.members row = some key := present
  have hands : (⟨current, a, .ok row :: rest, false⟩ : RootStream).next s root =
      (some (.ok a.finish), ⟨some key, grown, rest, false⟩) := by
    show advance s root current a (.ok row :: rest) = _
    rw [advance, present]
    simp only [closed, if_true, added]
  rw [take, hands]

/-- **A row that does not fit stops the stream.** A root that the row has closed is lost. -/
theorem take_unfit (present : root.keyIn row = some key)
    (unfit : (if current.any (· != key) then {} else a : Assembly).addRow s root row = .error e)
    (count : Nat) :
    (⟨current, a, .ok row :: rest, false⟩ : RootStream).take s root (count + 1) = [.error e] := by
  have present : keyOf? root.head root.members row = some key := present
  have stops : (⟨current, a, .ok row :: rest, false⟩ : RootStream).next s root =
      (some (.error e), ended) := by
    show advance s root current a (.ok row :: rest) = _
    rw [advance, present]
    simp only [unfit]
  rw [take, stops]
  exact congrArg _ (take_ended count)

/-- A failure of the source stops the stream. -/
theorem take_source (count : Nat) :
    (⟨current, a, .error e :: rest, false⟩ : RootStream).take s root (count + 1) = [.error e] :=
  congrArg _ (take_ended count)

/-- The end of the rows hands out the root at hand, if there is one. -/
theorem take_end (count : Nat) :
    (⟨current, a, [], false⟩ : RootStream).take s root (count + 1) =
      (current.map fun _ => .ok a.finish).toList := by
  cases current with
  | none => rfl
  | some key => exact congrArg _ (take_ended count)

end

end RootStream

/-! ## Runs of a stream -/

/-- A stream stands in a run of rows: it has assembled what the rows of the run are materialized
from, and holds their root key. -/
inductive Reads (s : Schema) (root : Entity) : List Row → Option Key → Assembly → Prop where
  | nothing : Reads s root [] none {}
  | rows {run : List Row} {key : Key} {a : Assembly} (nonempty : run ≠ [])
      (shares : root.Shares key run) (assembled : addRows s root {} (run.map .ok) = .ok a) :
      Reads s root run (some key) a

/-- What comes after some rows stops a stream: the source fails, or a row cannot be materialized with
the rows of its run before it. -/
def Plan.Entity.Fails (s : Schema) (root : Entity) (good : List Row) (bad : Except Error Row)
    (e : Error) : Prop :=
  match bad with
  | .error e' => e' = e
  | .ok row => ∃ run, (root.runs (good ++ [row])).getLast? = some run ∧ run.getLast? = some row ∧
      root.graphOf s run = .error e

/-- What a stream hands out that can read some rows and then comes to its end or is stopped by the
next of the others. -/
inductive HandsOut (s : Schema) (root : Entity) (good : List Row) :
    List (Except Error Row) → List (Except Error Graph) → Prop where
  | all : HandsOut s root good [] ((root.runs good).map (root.graphOf s))
  | stopped {bad : Except Error Row} {rest : List (Except Error Row)} {e : Error}
      (fails : root.Fails s good bad e) :
      HandsOut s root good (bad :: rest)
        ((root.runs good).dropLast.map (root.graphOf s) ++ [.error e])

section

variable {s : Schema} {root : Entity} {es : List Entity} {row : Row} {run good : List Row}
  {current : Option Key} {a : Assembly} {key : Key} {rest : List (Except Error Row)}
  {items : List (Except Error Graph)} {e : Error}

theorem Reads.graphs (h : Reads s root run current a) :
    (∀ r ∈ root.runs run, ∃ g, root.graphOf s r = .ok g) ∧ (root.runs run).dropLast = [] ∧
      (root.runs run).map (root.graphOf s) = (current.map fun _ => .ok a.finish).toList := by
  cases h with
  | nothing => exact ⟨fun _ h => absurd h List.not_mem_nil, rfl, rfl⟩
  | rows nonempty shares assembled =>
    have graph := graphOf_eq_ok.mpr ⟨a, assembled, rfl⟩
    rw [Entity.runs_of_shares shares nonempty]
    refine ⟨fun r hr => ⟨_, List.mem_singleton.mp hr ▸ graph⟩, rfl, ?_⟩
    rw [List.map_singleton, graph]
    rfl

/-- A stream whose run is open goes on with a row of its key. -/
theorem Reads.grow (h : Reads s root run current a) (present : root.keyIn row = some key)
    (open_ : current.any (· != key) = false) :
    root.Shares key (run ++ [row]) ∧
      addRows s root {} ((run ++ [row]).map .ok) = a.addRow s root row := by
  cases h with
  | nothing => exact ⟨Entity.shares_singleton present, addRows_singleton row⟩
  | rows nonempty shares assembled =>
    obtain rfl := bne_eq_false_iff_eq.mp open_
    exact ⟨shares.concat present, addRows_concat assembled row⟩

/-- A stream whose run is closed by a row of another key has its graph. -/
theorem Reads.close (h : Reads s root run current a) (present : root.keyIn row = some key)
    (closed : current.any (· != key) = true) :
    root.graphOf s run = .ok a.finish ∧
      ∀ more, root.runs (run ++ row :: more) = run :: root.runs (row :: more) := by
  cases h with
  | nothing => cases closed
  | rows nonempty shares assembled =>
    exact ⟨graphOf_eq_ok.mpr ⟨a, assembled, rfl⟩,
      Entity.runs_close shares nonempty present (bne_iff_ne.mp closed)⟩

theorem runs_ne_nil (present : root.keyIn row = some key) (more : List Row) :
    root.runs (row :: more) ≠ [] := by
  unfold Entity.runs
  rw [Entity.keyed_cons present]
  exact List.splitBy_ne_nil.mpr (List.cons_ne_nil _ _)

/-- A row without a root key changes nothing in what is handed out. -/
theorem HandsOut.skip (h : HandsOut s root (run ++ good) rest items)
    (absent : root.keyIn row = none) : HandsOut s root (run ++ row :: good) rest items := by
  cases h with
  | all =>
    rw [← Entity.runs_skip absent]
    exact .all
  | @stopped bad rest e fails =>
    rw [← Entity.runs_skip absent]
    apply HandsOut.stopped
    cases bad with
    | error e' => exact fails
    | ok bad =>
      obtain ⟨last, at_end, own, unfit⟩ := fails
      rw [List.append_assoc] at at_end
      refine ⟨last, ?_, own, unfit⟩
      rw [List.append_assoc, List.cons_append, Entity.runs_skip absent]
      exact at_end

/-- A run that is closed is handed out first. -/
theorem HandsOut.close (h : HandsOut s root (row :: good) rest items)
    (present : root.keyIn row = some key)
    (closed : ∀ more, root.runs (run ++ row :: more) = run :: root.runs (row :: more)) :
    HandsOut s root (run ++ row :: good) rest (root.graphOf s run :: items) := by
  have others : root.runs (row :: good) ≠ [] := runs_ne_nil present good
  cases h with
  | all =>
    rw [← List.map_cons, ← closed]
    exact .all
  | @stopped bad rest e fails =>
    have first : (root.runs (run ++ row :: good)).dropLast = run :: (root.runs (row :: good)).dropLast := by
      rw [closed, List.dropLast_cons_of_ne_nil others]
    rw [← List.cons_append, ← List.map_cons, ← first]
    apply HandsOut.stopped
    cases bad with
    | error e' => exact fails
    | ok bad =>
      obtain ⟨last, at_end, own, unfit⟩ := fails
      refine ⟨last, ?_, own, unfit⟩
      rw [List.append_assoc, List.cons_append, closed, List.getLast?_cons, ← List.cons_append, at_end]
      rfl

/-- What a stream that stands in a run takes from its rows: it reads rows up to their end or up to one
that stops it, the runs it has read can be materialized, and what it takes is what these hand out. -/
structure Takes (s : Schema) (root : Entity) (run : List Row) (stream : RootStream)
    (good : List Row) (rest : List (Except Error Row)) (items : List (Except Error Graph)) : Prop where
  split : stream.rows = good.map .ok ++ rest
  graphs : ∀ r ∈ root.runs (run ++ good), ∃ g, root.graphOf s r = .ok g
  handed : HandsOut s root (run ++ good) rest items
  taken : ∀ count, stream.take s root count = items.take count

/-- At the end of the rows the graph of the open run is handed out, if a run is open. -/
theorem Reads.takes_end (h : Reads s root run current a) :
    Takes s root run ⟨current, a, [], false⟩ [] [] ((root.runs run).map (root.graphOf s)) := by
  obtain ⟨graphs, -, all⟩ := h.graphs
  have handed : HandsOut s root run [] ((root.runs run).map (root.graphOf s)) := .all
  refine ⟨rfl, by rwa [List.append_nil], by rwa [List.append_nil], fun count => ?_⟩
  cases count with
  | zero => rfl
  | succ count =>
    rw [RootStream.take_end, all]
    cases current with
    | none => rfl
    | some key => exact (List.take_of_length_le (Nat.le_add_left 1 count)).symm

/-- Where the next row stops the stream, nothing of the open run is handed out. -/
theorem Reads.takes_stop {next : Except Error Row} (h : Reads s root run current a)
    (fails : root.Fails s run next e)
    (taken : ∀ count,
      (⟨current, a, next :: rest, false⟩ : RootStream).take s root (count + 1) = [.error e]) :
    Takes s root run ⟨current, a, next :: rest, false⟩ [] (next :: rest) [.error e] := by
  obtain ⟨graphs, alone, -⟩ := h.graphs
  have handed : HandsOut s root run (next :: rest) _ := .stopped fails
  rw [alone] at handed
  refine ⟨rfl, by rwa [List.append_nil], by rwa [List.append_nil], fun count => ?_⟩
  cases count with
  | zero => rfl
  | succ count =>
    rw [taken count]
    exact (List.take_of_length_le (Nat.le_add_left 1 count)).symm

variable {grown : Assembly} {after : List (Except Error Row)}

theorem Takes.skip (h : Takes s root run ⟨current, a, rest, false⟩ good after items)
    (absent : root.keyIn row = none) :
    Takes s root run ⟨current, a, .ok row :: rest, false⟩ (row :: good) after items where
  split := congrArg (.ok row :: ·) h.split
  graphs := by
    rw [Entity.runs_skip absent]
    exact h.graphs
  handed := h.handed.skip absent
  taken count := (RootStream.take_skip absent count).trans (h.taken count)

theorem Takes.grow (h : Takes s root (run ++ [row]) ⟨some key, grown, rest, false⟩ good after items)
    (present : root.keyIn row = some key) (open_ : current.any (· != key) = false)
    (added : a.addRow s root row = .ok grown) :
    Takes s root run ⟨current, a, .ok row :: rest, false⟩ (row :: good) after items where
  split := congrArg (.ok row :: ·) h.split
  graphs := List.append_cons run row good ▸ h.graphs
  handed := List.append_cons run row good ▸ h.handed
  taken count := (RootStream.take_grow present open_ added count).trans (h.taken count)

theorem Takes.close (h : Takes s root [row] ⟨some key, grown, rest, false⟩ good after items)
    (reads : Reads s root run current a) (present : root.keyIn row = some key)
    (closed : current.any (· != key) = true)
    (added : ({} : Assembly).addRow s root row = .ok grown) :
    Takes s root run ⟨current, a, .ok row :: rest, false⟩ (row :: good) after
      (root.graphOf s run :: items) := by
  obtain ⟨graph, cut⟩ := reads.close present closed
  refine ⟨congrArg (.ok row :: ·) h.split, ?_, h.handed.close present cut, fun count => ?_⟩
  · rw [cut]
    intro r hr
    rcases List.mem_cons.mp hr with rfl | later
    · exact ⟨_, graph⟩
    · exact h.graphs r later
  · cases count with
    | zero => rfl
    | succ count => rw [RootStream.take_close present closed added, h.taken, graph, List.take_succ_cons]

/-- **What a stream hands out, from a run on.** One case for each thing that the next row can do. -/
theorem takes_of_reads (h : Reads s root run current a) (rows : List (Except Error Row)) :
    ∃ good rest items, Takes s root run ⟨current, a, rows, false⟩ good rest items := by
  induction rows generalizing run current a with
  | nil => exact ⟨_, _, _, h.takes_end⟩
  | cons next rest ih =>
    cases next with
    | error e => exact ⟨_, _, _, h.takes_stop rfl RootStream.take_source⟩
    | ok row =>
      cases present : root.keyIn row with
      | none =>
        obtain ⟨good, after, items, takes⟩ := ih h
        exact ⟨_, _, _, takes.skip present⟩
      | some key =>
        cases closed : current.any (· != key) with
        | false =>
          obtain ⟨shares, adding⟩ := h.grow present closed
          have nonempty : run ++ [row] ≠ [] := List.append_ne_nil_of_right_ne_nil run nofun
          cases added : a.addRow s root row with
          | error e =>
            have alone : (root.runs (run ++ [row])).getLast? = some (run ++ [row]) := by
              rw [Entity.runs_of_shares shares nonempty]
              rfl
            have fails : root.Fails s run (.ok row) e :=
              ⟨run ++ [row], alone, List.getLast?_concat, graphOf_eq_error.mpr (adding.trans added)⟩
            exact ⟨_, _, _, h.takes_stop fails
              (RootStream.take_unfit present (by rw [closed]; exact added))⟩
          | ok grown =>
            obtain ⟨good, after, items, takes⟩ := ih (.rows nonempty shares (adding.trans added))
            exact ⟨_, _, _, takes.grow present closed added⟩
        | true =>
          have shares := Entity.shares_singleton present
          have adding : addRows s root {} ([row].map .ok) = _ := addRows_singleton row
          cases added : ({} : Assembly).addRow s root row with
          | error e =>
            have last : (root.runs (run ++ [row])).getLast? = some [row] := by
              rw [(h.close present closed).2, Entity.runs_of_shares shares nofun]
              rfl
            have fails : root.Fails s run (.ok row) e :=
              ⟨[row], last, rfl, graphOf_eq_error.mpr (adding.trans added)⟩
            exact ⟨_, _, _, h.takes_stop fails
              (RootStream.take_unfit present (by rw [closed]; exact added))⟩
          | ok grown =>
            obtain ⟨good, after, items, takes⟩ :=
              ih (.rows (List.cons_ne_nil row []) shares (adding.trans added))
            exact ⟨_, _, _, takes.close h present closed added⟩

end

/-- The runs of some rows that are closed as soon as one more has been read, if it can be read. -/
def Plan.Entity.closedRuns (root : Entity) (good : List Row) (next : Except Error Row) :
    List (List Row) :=
  (root.runs (good ++ next.toOption.toList)).dropLast

/-- A row closes the run before it: it has another root key than the last row that has one. -/
def Plan.Entity.Closes (root : Entity) (good : List Row) (row : Row) : Prop :=
  ∃ last key, (root.keyed good).getLast? = some last ∧ root.keyIn row = some key ∧
    root.keyIn last ≠ some key

section

variable {s : Schema} {root : Entity} {es : List Entity} {p : Plan} {row : Row} {good : List Row}
  {key : Key} {e : Error}

/-- A row that closes a run adds it to the closed ones; any other row leaves them as they are. -/
theorem closedRuns_ok (present : root.keyIn row = some key) :
    (root.Closes good row → root.closedRuns good (.ok row) = root.runs good ∧ root.runs good ≠ []) ∧
      (¬ root.Closes good row → root.closedRuns good (.ok row) = (root.runs good).dropLast) := by
  obtain ⟨closed, run, first, ⟨own, shares⟩, split⟩ := Entity.exists_open_run root good
  have before : root.runs good = closed ++ root.runs run := by
    have here := split []
    rw [List.append_nil, List.append_nil] at here
    exact here
  have after : root.closedRuns good (.ok row) = (closed ++ root.runs (run ++ [row])).dropLast :=
    congrArg List.dropLast (split [row])
  rw [after]
  by_cases nothing : run = []
  · -- no row before has a root key
    have none : root.runs good = [] := by
      rw [before, first nothing, nothing]
      rfl
    refine ⟨fun ⟨last, _, at_end, _⟩ => ?_, fun _ => ?_⟩
    · rw [← Entity.flatten_runs, none] at at_end
      cases at_end
    · rw [none, first nothing, nothing, List.nil_append, List.nil_append,
        Entity.runs_of_shares (Entity.shares_singleton present) (List.cons_ne_nil row [])]
      rfl
  have alone := Entity.runs_of_shares shares nothing
  have last_of : (root.keyed good).getLast? = run.getLast? := by
    rw [← Entity.flatten_runs, before, alone, List.flatten_append, List.flatten_singleton,
      List.getLast?_append_of_ne_nil _ nothing]
  obtain ⟨last, at_end⟩ := Option.ne_none_iff_exists'.mp (mt List.getLast?_eq_none_iff.mp nothing)
  have last_key := shares last (List.mem_of_getLast? at_end)
  by_cases same : own = key
  · subst same
    have longer : run ++ [row] ≠ [] := List.append_ne_nil_of_right_ne_nil run nofun
    refine ⟨fun ⟨last', _, at_end', own', other⟩ => ?_, fun _ => ?_⟩
    · rw [last_of, at_end] at at_end'
      cases at_end'
      exact absurd (last_key.trans (present.symm.trans own')) other
    · rw [before, alone, Entity.runs_of_shares (shares.concat present) longer, List.dropLast_concat,
        List.dropLast_concat]
  · have closes : root.Closes good row := by
      refine ⟨last, key, last_of.trans at_end, present, fun eq => same ?_⟩
      exact Option.some.inj (last_key.symm.trans eq)
    refine ⟨fun _ => ⟨?_, ?_⟩, fun other => absurd closes other⟩
    · rw [before, alone, Entity.runs_close shares nothing present same [],
        Entity.runs_of_shares (Entity.shares_singleton present) (List.cons_ne_nil row []),
        ← List.singleton_append, ← List.append_assoc, List.dropLast_concat]
    · rw [before, alone]
      exact List.append_ne_nil_of_right_ne_nil closed (List.cons_ne_nil run [])

/-- No list of nonempty lists has more lists than items. -/
theorem length_runs_le (root : Entity) (rows : List Row) : (root.runs rows).length ≤ rows.length := by
  have each : ∀ runs : List (List Row), (∀ run ∈ runs, run ≠ []) →
      runs.length ≤ runs.flatten.length := by
    intro runs
    induction runs with
    | nil => exact fun _ => Nat.le_refl 0
    | cons run rest ih =>
      intro nonempty
      have first := List.length_pos_iff.mpr (nonempty run List.mem_cons_self)
      have later := ih fun run' mem => nonempty run' (List.mem_cons_of_mem run mem)
      rw [List.flatten_cons, List.length_append, List.length_cons]
      omega
  have bound := each (root.runs rows) fun run mem => (Entity.shares_of_mem_runs mem).1
  rw [Entity.flatten_runs] at bound
  exact bound.trans (List.length_filter_le _ rows)

/-- **What the stream of a plan hands out**, to anyone who asks for it any number of times. -/
theorem stream_handsOut (has_root : p.root = some root) (rows : List (Except Error Row)) :
    ∃ good rest items, rows = good.map .ok ++ rest ∧
      (∀ run ∈ root.runs good, ∃ g, root.graphOf s run = .ok g) ∧ HandsOut s root good rest items ∧
      p.stream s rows = items ∧
      ∀ count, (RootStream.start rows).take s root count = items.take count := by
  obtain ⟨good, rest, items, ⟨split, graphs, handed, taken⟩⟩ :=
    takes_of_reads (.nothing : Reads s root [] none {}) rows
  have split : rows = good.map .ok ++ rest := split
  have enough : items.length ≤ rows.length + 1 := by
    have runs := length_runs_le root good
    rw [split, List.length_append, List.length_map]
    cases handed with
    | all =>
      rw [List.length_map, List.nil_append]
      omega
    | stopped =>
      rw [List.length_append, List.length_map, List.length_dropLast, List.nil_append,
        List.length_singleton, List.length_cons]
      omega
  refine ⟨good, rest, items, split, graphs, handed, ?_, taken⟩
  unfold Plan.stream
  rw [has_root]
  exact (taken (rows.length + 1)).trans (List.take_of_length_le enough)

/-- What is handed out last is what the stream has ended with. -/
theorem RootStream.ended_of_next {stream later : RootStream} {item : Option (Except Error Graph)}
    (h : stream.next s root = (item, later)) (last : ∀ g, item ≠ some (.ok g)) :
    later.next s root = (none, later) := by
  have along : ∀ (rows : List (Except Error Row)) (current : Option Key) (a : Assembly),
      advance s root current a rows = (item, later) → later = ended := by
    intro rows
    induction rows with
    | nil =>
      intro current a h
      exact (Prod.mk.inj h).2.symm
    | cons row rest ih =>
      intro current a h
      cases row with
      | error e => exact (Prod.mk.inj h).2.symm
      | ok row =>
        unfold advance at h
        split at h
        next => exact ih _ _ h
        next key _ =>
          dsimp only at h
          split at h
          next => exact (Prod.mk.inj h).2.symm
          next =>
            split at h
            next => exact absurd (Prod.mk.inj h).1.symm (last _)
            next => exact ih _ _ h
  unfold next at h
  split at h
  next done =>
    obtain ⟨-, rfl⟩ := Prod.mk.inj h
    exact if_pos done
  next =>
    rw [along _ _ _ h]
    rfl

/-- **Every graph that a stream hands out has one root.** -/
theorem size_of_mem_stream (wired : Wired s root es) (has_root : p.root = some root)
    {rows : List (Except Error Row)} {g : Graph} (mem : .ok g ∈ p.stream s rows) : g.size = 1 := by
  obtain ⟨good, rest, items, -, -, handed, rfl, -⟩ := stream_handsOut (s := s) has_root rows
  generalize p.stream s rows = items at mem handed
  have of_run : ∃ run ∈ root.runs good, root.graphOf s run = .ok g := by
    cases handed with
    | all => exact List.mem_map.mp mem
    | stopped =>
      rcases List.mem_append.mp mem with handed | error
      · obtain ⟨run, closed, graph⟩ := List.mem_map.mp handed
        exact ⟨run, (List.dropLast_sublist _).subset closed, graph⟩
      · cases List.mem_singleton.mp error
  obtain ⟨run, hr, graph⟩ := of_run
  obtain ⟨nonempty, key, shares⟩ := Entity.shares_of_mem_runs hr
  exact size_of_graphOf wired shares nonempty graph

/-- A run that fails with the rows of one more is part of one that fails with all rows. -/
theorem Plan.Entity.Fails.of_run (h : root.Fails s good (.ok row) e) (rest : List Row) :
    ∃ run ∈ root.runs (good ++ row :: rest), root.graphOf s run = .error e := by
  obtain ⟨last, at_end, -, unfit⟩ := h
  obtain ⟨closed, run, first, ⟨key, shares⟩, split⟩ := Entity.exists_open_run root (good ++ [row])
  have here : root.runs (good ++ [row]) = closed ++ root.runs run := by
    have here := split []
    rw [List.append_nil, List.append_nil] at here
    exact here
  have nonempty : run ≠ [] := by
    intro empty
    rw [here, first empty, empty] at at_end
    cases at_end
  rw [here, Entity.runs_of_shares shares nonempty, List.getLast?_concat] at at_end
  obtain rfl : run = last := Option.some.inj at_end
  obtain ⟨more, others, extended⟩ := Entity.runs_extend shares nonempty rest
  refine ⟨run ++ more, ?_, graphOf_append_error unfit more⟩
  have all := split rest
  rw [List.append_assoc, List.singleton_append, extended] at all
  rw [all]
  exact List.mem_append_right _ List.mem_cons_self

/-- What a stream hands out of rows that the source delivers: the graphs of all runs, unless one of
them cannot be materialized and stops the stream. -/
theorem HandsOut.of_rows {rows : List Row} (h : HandsOut s root good rest items)
    (split : rows.map .ok = good.map .ok ++ rest) :
    (good = rows ∧ items = (root.runs rows).map (root.graphOf s)) ∨
      ∃ e, .error e ∈ items ∧ ∃ run ∈ root.runs rows, root.graphOf s run = .error e := by
  cases h with
  | all =>
    rw [List.append_nil] at split
    obtain rfl := List.map_injective_iff.mpr (fun _ _ h => Except.ok.inj h) split
    exact .inl ⟨rfl, rfl⟩
  | @stopped bad later e fails =>
    -- the row that stops the stream is one of a run that cannot be materialized
    obtain ⟨front, back, rfl, front_eq, back_eq⟩ := List.map_eq_append_iff.mp split
    obtain rfl := List.map_injective_iff.mpr (fun _ _ h => Except.ok.inj h) front_eq
    obtain ⟨row, others, rfl, rfl, -⟩ := List.map_eq_cons_iff.mp back_eq
    exact .inr ⟨e, List.mem_append_right _ (List.mem_singleton_self _), fails.of_run others⟩

end

/-! ## Main results -/

/-- The runs of some rows of a plan. -/
def Plan.runs (p : Plan) (rows : List Row) : List (List Row) :=
  match p.root with
  | none => []
  | some root => root.runs rows

/-- **A stream hands out the graph of each run, one after the other.** Where all runs can be
materialized, these are all that it hands out, however often it is asked, and each has one root. After
its end or a failure a stream hands out nothing more. -/
theorem Plan.stream_hands_out_runs {s : Schema} {name : String} {p : Plan} {rows : List Row}
    (built : Plan.build s name = .ok p)
    (clean : ∀ run ∈ p.runs rows, ∃ g, p.materialize s (run.map .ok) = .ok g) :
    p.stream s (rows.map .ok) = (p.runs rows).map (fun run => p.materialize s (run.map .ok)) ∧
      (∀ g, .ok g ∈ p.stream s (rows.map .ok) → g.size = 1) ∧
      ∃ root, p.root = some root ∧
        (∀ count, (RootStream.start (rows.map .ok)).take s root count =
          (p.stream s (rows.map .ok)).take count) ∧
        ∀ (stream later : RootStream) (item : Option (Except Error Graph)),
          stream.next s root = (item, later) → (∀ g, item ≠ some (.ok g)) →
            later.next s root = (none, later) := by
  obtain ⟨root, has_root, wired⟩ := wired_of_build built
  have runs : p.runs rows = root.runs rows := by
    unfold Plan.runs
    rw [has_root]
  have graphs : (fun run => p.materialize s (run.map .ok)) = root.graphOf s :=
    funext fun run => materialize_eq_graphOf has_root run
  rw [runs] at clean ⊢
  rw [graphs]
  obtain ⟨good, rest, items, split, -, handed, all, taken⟩ :=
    stream_handsOut (s := s) has_root (rows.map .ok)
  refine ⟨?_, fun g mem => size_of_mem_stream wired has_root mem, root, has_root, all ▸ taken,
    fun stream later item stepped last => RootStream.ended_of_next stepped last⟩
  rw [all]
  rcases handed.of_rows split with ⟨-, items_eq⟩ | ⟨e, -, run, hr, failed⟩
  · exact items_eq
  · obtain ⟨g, graph⟩ := clean run hr
    rw [materialize_eq_graphOf has_root, failed] at graph
    cases graph

/-- Rows about a person with two projects, with one about nobody between them, then about another
person, and last about the first again. -/
def returningRows : List Row := [
  .ofPairs [("person.id", .int 1), ("person.name", .text "Ada"), ("person.employee.id", .int 1),
    ("projects.id", .int 7)],
  .ofPairs [("person.name", .text "nobody")],
  .ofPairs [("person.id", .int 1), ("person.name", .text "Ada"), ("person.employee.id", .int 1),
    ("projects.id", .int 8)],
  .ofPairs [("person.id", .int 2), ("person.name", .text "Bo")],
  .ofPairs [("person.id", .int 1), ("person.name", .text "Ada")]]

theorem stream_hands_out_runs_staff : ∃ p, Plan.build staff "Person" = .ok p ∧
    (p.runs returningRows).map (·.length) = [2, 1, 1] ∧
    p.stream staff (returningRows.map .ok) =
      (p.runs returningRows).map (fun run => p.materialize staff (run.map .ok)) ∧
    ∀ g, .ok g ∈ p.stream staff (returningRows.map .ok) → g.size = 1 := by
  obtain ⟨p, built, found⟩ := ok_of_map (x := Plan.build staff "Person")
    (f := fun p => ((p.runs returningRows).map (·.length),
      (p.runs returningRows).all fun run => (p.materialize staff (run.map .ok)).isOk))
    (b := ([2, 1, 1], true)) (by decide +kernel)
  obtain ⟨lengths, fit⟩ := Prod.mk.inj found
  have clean : ∀ run ∈ p.runs returningRows, ∃ g, p.materialize staff (run.map .ok) = .ok g :=
    fun run hr => exists_of_isOk (List.all_eq_true.mp fit run hr)
  obtain ⟨handed, sizes, -⟩ := Plan.stream_hands_out_runs built clean
  exact ⟨p, built, lengths, handed, sizes⟩

/-- **Where a stream stops with a failure, it has handed out the runs that the rows before the failing
one had closed.** These are all runs that are closed by then, the failing row included, unless the
failing row has closed one itself: the graph of that run is lost. -/
theorem Plan.stream_stops {s : Schema} {name : String} {p : Plan} {rows : List (Except Error Row)}
    {e : Error} (built : Plan.build s name = .ok p) (failed : .error e ∈ p.stream s rows) :
    ∃ root good bad rest, p.root = some root ∧ rows = good.map .ok ++ bad :: rest ∧
      root.Fails s good bad e ∧
      (∀ run ∈ root.runs good, ∃ g, p.materialize s (run.map .ok) = .ok g) ∧
      p.stream s rows =
        (root.runs good).dropLast.map (fun run => p.materialize s (run.map .ok)) ++ [.error e] ∧
      (p.stream s rows =
          (root.closedRuns good bad).map (fun run => p.materialize s (run.map .ok)) ++ [.error e] ↔
        ¬ ∃ row, bad = .ok row ∧ root.Closes good row) := by
  obtain ⟨root, has_root, wired⟩ := wired_of_build built
  simp only [materialize_eq_graphOf has_root]
  obtain ⟨good, rest, items, split, fit, handed, all, -⟩ := stream_handsOut (s := s) has_root rows
  rw [all] at failed ⊢
  cases handed with
  | all =>
    obtain ⟨run, hr, graph⟩ := List.mem_map.mp failed
    obtain ⟨g, ok⟩ := fit run hr
    cases ok.symm.trans graph
  | @stopped bad later e' fails =>
    have same : e' = e := by
      rcases List.mem_append.mp failed with graph | here
      · obtain ⟨run, hr, graph⟩ := List.mem_map.mp graph
        obtain ⟨g, ok⟩ := fit run ((List.dropLast_sublist _).subset hr)
        cases ok.symm.trans graph
      · exact (Except.error.inj (List.mem_singleton.mp here)).symm
    subst same
    refine ⟨root, good, bad, later, has_root, split, fails, fit, rfl, ?_⟩
    rw [List.append_left_inj]
    cases bad with
    | error e'' =>
      have closed : root.closedRuns good (.error e'') = (root.runs good).dropLast := by
        show (root.runs (good ++ [])).dropLast = _
        rw [List.append_nil]
      rw [closed]
      exact ⟨fun _ ⟨_, same, _⟩ => (nomatch same), fun _ => rfl⟩
    | ok row =>
      obtain ⟨run, at_end, own, -⟩ := fails
      obtain ⟨-, key, shares⟩ := Entity.shares_of_mem_runs (List.mem_of_getLast? at_end)
      have present := shares row (List.mem_of_getLast? own)
      obtain ⟨closing, other⟩ : (root.Closes good row → _) ∧ (¬ root.Closes good row → _) :=
        closedRuns_ok present
      constructor
      · rintro equal ⟨row', same, closes⟩
        cases same
        obtain ⟨all, some⟩ := closing closes
        rw [all] at equal
        have lengths := congrArg List.length equal
        rw [List.length_map, List.length_map, List.length_dropLast] at lengths
        have := List.length_pos_iff.mpr some
        omega
      · intro no
        rw [other fun closes => no ⟨row, rfl, closes⟩]

/-- Rows about two persons, of whom the second has a key that is no number. -/
def unfitRows : List Row := [
  .ofPairs [("person.id", .int 1), ("person.name", .text "Ada")],
  .ofPairs [("person.id", .text "two"), ("person.name", .text "Bo")]]

/-- The first person is complete when the row about the second is read, and it is not handed out. -/
theorem stream_stops_staff : ∃ p e root good bad rest, Plan.build staff "Person" = .ok p ∧
    (p.materialize staff (unfitRows.take 1 |>.map .ok)).isOk = true ∧
    p.stream staff (unfitRows.map .ok) = [.error e] ∧ p.root = some root ∧
    unfitRows.map .ok = good.map .ok ++ bad :: rest ∧ root.Fails staff good bad e ∧
    p.stream staff (unfitRows.map .ok) = (root.runs good).dropLast.map
      (fun run => p.materialize staff (run.map .ok)) ++ [.error e] := by
  obtain ⟨p, built, found⟩ := ok_of_map (x := Plan.build staff "Person")
    (f := fun p => ((p.materialize staff (unfitRows.take 1 |>.map .ok)).isOk,
      (p.stream staff (unfitRows.map .ok)).map fun item => item.toOption.isNone))
    (b := (true, [true])) (by decide +kernel)
  obtain ⟨complete, stops⟩ := Prod.mk.inj found
  obtain ⟨item, handed, none⟩ := List.map_eq_singleton_iff.mp stops
  cases item with
  | ok g => cases none
  | error e =>
    have failed : .error e ∈ p.stream staff (unfitRows.map .ok) := handed ▸ List.mem_singleton.mpr rfl
    obtain ⟨root, good, bad, rest, has_root, split, fails, -, told, -⟩ :=
      Plan.stream_stops built failed
    exact ⟨p, e, root, good, bad, rest, built, complete, handed, has_root, split, fails, told⟩

end Orm
