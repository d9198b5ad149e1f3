import Orm.Proofs.Assembly.Blocks

/-!
# `Proofs.Assembly.Agreement` — a stream and one graph of all rows

A stream forgets everything when a new root begins; materializing keeps all instances to the end. The
two agree where nothing has to be kept: the rows of each root stand together, and no two roots share
an instance. Then the graph of all rows is the union of the graphs that are handed out, and its JSON is
theirs, one after the other.

The invariant is that of a fold over the runs: what has been assembled of the earlier runs is an
assembly that the next run is assembled behind. Its identities are those that the earlier rows reach,
so the next run, which is about another root, meets none of them.

## Contents
- **Rows.** `Entity.Grouped`, `Entity.Separate`, `grouped_of_keys`.
- **Runs.** `Grouped.apart`, `addRows_keyed`.
- **Reached keys.** `Reaches.keyOf`, `Reaches.keyed`, `separate_of_keys`, `Tells.admits`.
- **Folding.** `Folds`, `Tells.folds`.
- **Main result.** `Plan.stream_adds_up`.
-/

namespace Orm

open Schema Plan Assembly

/-! ## Rows -/

namespace Plan.Entity

/-- The rows of each root stand together: between two rows about one root, no row is about another.
Rows without a root key may stand anywhere. -/
def Grouped (root : Entity) (rows : List Row) : Prop :=
  ∀ (first between last : Row) (key other : Key), [first, between, last].Sublist rows →
    root.keyIn first = some key → root.keyIn last = some key → root.keyIn between = some other →
      other = key

/-- No two roots share an instance: rows that reach an entity other than the root under one key are
about one root. -/
def Separate (root : Entity) (rows : List Row) : Prop :=
  ∀ e keyAt, Reaches root rows e keyAt → e ≠ root →
    ∀ row ∈ rows, ∀ row' ∈ rows, ∀ key, keyAt row = some key → keyAt row' = some key →
      root.keyIn row = root.keyIn row'

variable {root : Entity} {rows : List Row} {run later : List Row}

/-- Rows are grouped if no key comes back behind another one. -/
theorem grouped_of_keys
    (apart : ∀ key other : Key, [key, other, key].Sublist (rows.filterMap root.keyIn) → other = key) :
    root.Grouped rows := by
  intro first between last key other sub first_key last_key between_key
  have keys : [first, between, last].filterMap root.keyIn = [key, other, key] := by
    simp only [List.filterMap_cons, List.filterMap_nil, first_key, between_key, last_key]
  exact apart key other (keys ▸ sub.filterMap root.keyIn)

/-! ## Runs -/

/-- Neighbouring runs are about different roots. -/
theorem ne_of_neighbours (shares : ∃ key, root.Shares key run) (shares' : ∃ key, root.Shares key later)
    (cut : ∃ ha hb, (root.keyIn (run.getLast ha) == root.keyIn (later.head hb)) = false) :
    ∀ a ∈ run, ∀ b ∈ later, root.keyIn a ≠ root.keyIn b := by
  obtain ⟨key, shares⟩ := shares
  obtain ⟨key', shares'⟩ := shares'
  obtain ⟨some, some', differ⟩ := cut
  intro a ha b hb
  rw [shares a ha, shares' b hb, ← shares _ (List.getLast_mem some), ← shares' _ (List.head_mem some')]
  exact ne_of_beq_false differ

/-- **Where rows are grouped, no root has two runs.** -/
theorem Grouped.apart (grouped : root.Grouped rows) :
    (root.runs rows).Pairwise fun run later =>
      ∀ a ∈ run, ∀ b ∈ later, root.keyIn a ≠ root.keyIn b := by
  -- For any runs whose rows stand in this order among the rows: the induction drops runs in front.
  have along : ∀ runs : List (List Row), runs.flatten.Sublist rows →
      (∀ run ∈ runs, run ≠ [] ∧ ∃ key, root.Shares key run) →
      (runs.IsChain fun run later =>
        ∃ ha hb, (root.keyIn (run.getLast ha) == root.keyIn (later.head hb)) = false) →
      runs.Pairwise fun run later => ∀ a ∈ run, ∀ b ∈ later, root.keyIn a ≠ root.keyIn b := by
    intro runs
    induction runs with
    | nil => exact fun _ _ _ => .nil
    | cons run rest ih =>
      intro sub each cuts
      cases rest with
      | nil => exact List.pairwise_singleton _ _
      | cons next more =>
        rw [List.isChain_cons_cons] at cuts
        have others := fun r hr => each r (List.mem_cons_of_mem run hr)
        have neighbours := ne_of_neighbours (each run List.mem_cons_self).2
          (each next (List.mem_cons_of_mem _ List.mem_cons_self)).2 cuts.1
        have shorter : (next :: more).flatten.Sublist rows :=
          (List.sublist_append_right run _).trans sub
        refine .cons (fun later hl a ha c hc same => ?_) (ih shorter others cuts.2)
        rcases List.mem_cons.mp hl with rfl | hl
        · exact neighbours a ha c hc same
        -- a row of the next run would stand between two rows about one root
        obtain ⟨key, shares⟩ := (each run List.mem_cons_self).2
        obtain ⟨nonempty, key', shares'⟩ := others next List.mem_cons_self
        obtain ⟨b, hb⟩ := List.exists_mem_of_ne_nil next nonempty
        have behind : c ∈ more.flatten := List.mem_flatten.mpr ⟨later, hl, hc⟩
        have three : ([a] ++ ([b] ++ [c])).Sublist (run ++ (next ++ more.flatten)) :=
          (List.singleton_sublist.mpr ha).append
            ((List.singleton_sublist.mpr hb).append (List.singleton_sublist.mpr behind))
        have equal := grouped a b c key key' (three.trans sub) (shares a ha)
          (same ▸ shares a ha) (shares' b hb)
        rw [equal] at shares'
        exact neighbours a ha b hb ((shares a ha).trans (shares' b hb).symm)
  have cuts : (root.runs rows).IsChain fun run later =>
      ∃ ha hb, (root.keyIn (run.getLast ha) == root.keyIn (later.head hb)) = false :=
    List.isChain_getLast_head_splitBy (fun a b => root.keyIn a == root.keyIn b) _
  refine along (root.runs rows) ?_ (fun run mem => shares_of_mem_runs mem) cuts
  rw [flatten_runs]
  exact List.filter_sublist

end Plan.Entity

section

variable {s : Schema} {root : Entity} {es : List Entity} {rows : List Row} {row : Row}
  {keys : Nat → Row → Option Key} {type : Nat → Key → TypeModel} {e : Entity}
  {keyAt : Row → Option Key} {key : Key} {a c : Assembly}

/-- Rows without a root key add nothing. -/
theorem addRows_keyed (a : Assembly) (rows : List Row) :
    addRows s root a (rows.map .ok) = addRows s root a ((root.keyed rows).map .ok) := by
  induction rows generalizing a with
  | nil => rfl
  | cons row rest ih =>
    cases present : root.keyIn row with
    | none =>
      have dropped : root.keyed (row :: rest) = root.keyed rest :=
        List.filter_cons_of_neg (by rw [present]; exact Bool.false_ne_true)
      have same : a.addRow s root row = .ok a := addRow_eq_ok_iff.mpr (.unkeyed present)
      rw [dropped, addRows_cons, same]
      exact ih a
    | some key =>
      rw [Entity.keyed_cons present, addRows_cons, addRows_cons]
      exact congrArg (a.addRow s root row >>= ·) (funext ih)

/-! ## Reached keys -/

/-- An entity is reached under its key in the row. -/
theorem Reaches.keyOf (h : Reaches root rows e keyAt) (here : keyAt row = some key) :
    keyOf? e.head e.members row = some key := by
  cases h with
  | root => exact here
  | child owner hx =>
    obtain ⟨_, -, found⟩ := Option.bind_eq_some_iff.mp here
    exact (Option.ite_none_right_eq_some.mp found).2

/-- A row that reaches anything has a root key. -/
theorem Reaches.keyed (h : Reaches root rows e keyAt) (here : keyAt row = some key) :
    (root.keyIn row).isSome = true := by
  induction h generalizing key with
  | root => exact Option.isSome_iff_exists.mpr ⟨key, here⟩
  | child owner hx ih =>
    obtain ⟨_, present, -⟩ := Option.bind_eq_some_iff.mp here
    exact ih present

/-- Rows that have no key in common but for one root share no instance. -/
theorem separate_of_keys (wired : Wired s root es)
    (all : ∀ row ∈ rows, ∀ row' ∈ rows, ∀ e ∈ es, ∀ key, keyOf? e.head e.members row = some key →
      keyOf? e.head e.members row' = some key → root.keyIn row = root.keyIn row') :
    root.Separate rows :=
  fun e _ reached _ row hr row' hr' key here here' =>
    all row hr row' hr' e (reached.mem wired) key (reached.keyOf here) (reached.keyOf here')

/-- Rows that reach any entity under one key are about one root. -/
theorem Plan.Entity.Separate.same_root (separate : root.Separate rows) (wired : Wired s root es)
    (reached : Reaches root rows e keyAt) {row' : Row} (hr : row ∈ rows) (hr' : row' ∈ rows)
    (here : keyAt row = some key) (here' : keyAt row' = some key) :
    root.keyIn row = root.keyIn row' := by
  by_cases top : e = root
  · subst top
    obtain ⟨-, rfl⟩ := reached.unique Reaches.root wired rfl
    exact here.trans here'.symm
  · exact separate e keyAt reached top row hr row' hr' key here here'

/-- **A row meets nothing that rows about other roots have met.** What it meets for the first time in
its run it meets for the first time at all, so it tells the type. -/
theorem Tells.admits (t : Tells root rows keys type) (wired : Wired s root es)
    (separate : root.Separate rows) {earlier before after : List Row}
    (split : root.keyed rows = earlier ++ (before ++ row :: after))
    (other : ∀ r ∈ earlier, root.keyIn r ≠ root.keyIn row)
    (knows : Knows type (earlier.flatMap (root.events type)) a) :
    Admits type es row a (before.flatMap (root.events type)) (root.events type row) := by
  have inside : ∀ r ∈ earlier ++ (before ++ row :: after), r ∈ rows := fun r hr =>
    List.filter_subset_self rows (split ▸ hr)
  intro e he key met
  obtain ⟨keyAt, reached⟩ := exists_reaches wired rows he
  have here := t.keyAt_of_met wired reached met
  -- No earlier row reaches the instance: it would be about the same root.
  have elsewhere : ∀ r ∈ earlier, keyAt r ≠ some key := by
    intro r hr same
    refine other r hr (separate.same_root wired reached (inside r ?_) (inside row ?_) same here)
    · exact List.mem_append_left _ hr
    · exact List.mem_append_right _ (List.mem_append_right _ List.mem_cons_self)
  constructor
  · intro known
    have met := mem_identitiesIn.mp ((knows.identities _).mp known)
    obtain ⟨r, hr, same⟩ := (t.met_iff wired reached).mp met
    exact elsewhere r hr same
  · intro new
    have unmet : ∀ r ∈ before, keyAt r ≠ some key := fun r hr same =>
      new ((t.met_iff wired reached).mpr ⟨r, hr, same⟩)
    -- A row that reaches an instance is about a root, so the first row to reach it is the first of
    -- those about a root, and these stand in the order of the split.
    have among : (rows.find? fun r => keyAt r == some key) =
        (root.keyed rows).find? fun r => keyAt r == some key := by
      unfold Entity.keyed
      rw [List.find?_filter]
      refine congrArg (rows.find? ·) (funext fun r => ?_)
      cases found : keyAt r == some key with
      | false => simp
      | true => simp [reached.keyed (eq_of_beq found)]
    have first := find?_of_first (split.trans (List.append_assoc ..).symm) here fun r hr =>
      (List.mem_append.mp hr).elim (elsewhere r) (unmet r)
    rw [t.type_eq reached, Entity.told, among, first]

/-! ## Folding -/

/-- What comes of some runs of rows after an assembly: their graphs add up to the graph of the whole,
or one of the runs fails. -/
def Folds (s : Schema) (root : Entity) (runs : List (List Row)) (a : Assembly)
    (whole : Except Error Assembly) : Prop :=
  (∀ c, whole = .ok c → ∃ gs : List Graph, runs.map (root.graphOf s) = gs.map .ok ∧
    c.finish.toJson.items = a.finish.toJson.items ++ gs.flatMap (·.toJson.items)) ∧
  ∀ e, whole = .error e → ∃ run ∈ runs, root.graphOf s run = .error e

/-- Where the first run fails, all fails. -/
theorem Folds.first_fails {run : List Row} {runs : List (List Row)} {e : Error}
    (failed : addRows s root {} (run.map .ok) = .error e) : Folds s root (run :: runs) a (.error e) := by
  refine ⟨fun c done => ?_, fun e' same => ⟨run, List.mem_cons_self, ?_⟩⟩
  · cases done
  · cases same
    exact graphOf_eq_error.mpr failed

/-- Where the first run has a graph, it comes before those of the others. -/
theorem Folds.first {run : List Row} {runs : List (List Row)} {b : Assembly}
    {whole : Except Error Assembly} (assembled : addRows s root {} (run.map .ok) = .ok b)
    (items : (a.union b).finish.toJson.items = a.finish.toJson.items ++ b.finish.toJson.items)
    (h : Folds s root runs (a.union b) whole) : Folds s root (run :: runs) a whole := by
  obtain ⟨adds_up, fails⟩ := h
  constructor
  · intro c done
    obtain ⟨gs, graphs, later_items⟩ := adds_up c done
    have graph : root.graphOf s run = .ok b.finish := graphOf_eq_ok.mpr ⟨b, assembled, rfl⟩
    refine ⟨b.finish :: gs, by rw [List.map_cons, graph, graphs, List.map_cons], ?_⟩
    rw [later_items, items, List.flatMap_cons, List.append_assoc]
  · intro e failed
    obtain ⟨later, hl, error⟩ := fails e failed
    exact ⟨later, List.mem_cons_of_mem _ hl, error⟩

/-- **Runs are assembled one behind the other.** The induction is on the runs that are left; what has
been assembled of the earlier rows is known. -/
theorem Tells.folds (t : Tells root rows keys type) (wired : Wired s root es)
    (separate : root.Separate rows) {runs : List (List Row)} {earlier : List Row}
    (split : root.keyed rows = earlier ++ runs.flatten)
    (apart : runs.Pairwise fun run later => ∀ a ∈ run, ∀ b ∈ later, root.keyIn a ≠ root.keyIn b)
    (before : ∀ run ∈ runs, ∀ r ∈ earlier, ∀ b ∈ run, root.keyIn r ≠ root.keyIn b)
    (assembled : addRows s root {} (earlier.map .ok) = .ok a)
    (knows : Knows type (earlier.flatMap (root.events type)) a) :
    Folds s root runs a (addRows s root a (runs.flatten.map .ok)) := by
  induction runs generalizing earlier a with
  | nil =>
    refine ⟨fun c done => ⟨[], rfl, ?_⟩, fun e failed => ?_⟩
    · cases done
      exact (List.append_nil _).symm
    · cases failed
  | cons run rest ih =>
    have descends := addRows_descends wired (descends_empty _) assembled
    -- the run does behind what is there what it does alone
    have admits : ∀ done row after, run = done ++ row :: after →
        Admits type es row a ([] ++ done.flatMap (root.events type)) (root.events type row) := by
      intro done row after inner
      have here : root.keyed rows = earlier ++ (done ++ row :: (after ++ rest.flatten)) := by
        rw [split, List.flatten_cons, inner, List.append_assoc, List.cons_append]
      have mem : row ∈ run := inner ▸ List.mem_append_right _ List.mem_cons_self
      exact t.admits wired separate here
        (fun r hr => before run List.mem_cons_self r hr row mem) knows
    have step := addRows_inStep (s := s) wired descends.linked admits (Knows.start type)
    rw [union_empty] at step
    obtain ⟨behind, known⟩ := step
    have whole : addRows s root a ((run :: rest).flatten.map .ok) =
        addRows s root a (run.map .ok) >>= fun c => addRows s root c (rest.flatten.map .ok) := by
      rw [List.flatten_cons, List.map_append, addRows_append]
    rw [whole, behind]
    cases alone : addRows s root {} (run.map .ok) with
    | error e => exact .first_fails alone
    | ok b =>
      have longer : addRows s root {} ((earlier ++ run).map .ok) = .ok (a.union b) := by
        rw [List.map_append, addRows_append, assembled]
        show addRows s root a (run.map .ok) = _
        rw [behind, alone]
        rfl
      have both : Knows type ((earlier ++ run).flatMap (root.events type)) (a.union b) := by
        rw [List.flatMap_append]
        exact knows.union (known b alone)
      have items : (a.union b).finish.toJson.items =
          a.finish.toJson.items ++ b.finish.toJson.items := by
        rw [finish_union]
        exact Graph.items_toJson_union (grounded_of_addRows wired assembled)
          (grounded_of_addRows wired alone)
      obtain ⟨apart_first, apart_rest⟩ := List.pairwise_cons.mp apart
      refine Folds.first alone items (ih ?_ apart_rest ?_ longer both)
      · rw [split, List.flatten_cons, List.append_assoc]
      · intro next hn r hr b hb
        rcases List.mem_append.mp hr with old | new
        · exact before next (List.mem_cons_of_mem _ hn) r old b hb
        · exact apart_first next hn r new b hb

end

/-! ## Main result -/

/-- **A stream hands out in parts what materializing gives as a whole.** Where the rows of each root
stand together and no two roots share an instance, all rows can be materialized if and only if the
stream hands out nothing but graphs; and the JSON of the one graph is that of the others, one after
the other. -/
theorem Plan.stream_adds_up {s : Schema} {name : String} {p : Plan} {rows : List Row}
    (built : Plan.build s name = .ok p)
    (grouped : ∀ root, p.root = some root → root.Grouped rows)
    (separate : ∀ root, p.root = some root → root.Separate rows) :
    ((∃ g, p.materialize s (rows.map .ok) = .ok g) ↔
      ∀ item ∈ p.stream s (rows.map .ok), ∃ g, item = .ok g) ∧
    ∀ g, p.materialize s (rows.map .ok) = .ok g →
      ∃ gs : List Graph, p.stream s (rows.map .ok) = gs.map .ok ∧
        g.toJson = .array (gs.flatMap (·.toJson.items)) := by
  obtain ⟨root, has_root, wired⟩ := wired_of_build built
  obtain ⟨keys, type, tells⟩ := exists_tells wired rows
  obtain ⟨adds_up, fails⟩ : Folds s root (root.runs rows) {} (addRows s root {} (rows.map .ok)) := by
    have whole : root.keyed rows = [] ++ (root.runs rows).flatten := (root.flatten_runs rows).symm
    have folds := tells.folds (s := s) wired (separate root has_root) whole
      (grouped root has_root).apart (fun _ _ _ none => absurd none List.not_mem_nil) rfl
      (Knows.start type)
    rwa [root.flatten_runs, ← addRows_keyed] at folds
  -- The stream hands out runs up to the first that fails; all that matters is whether there is one.
  obtain ⟨good, rest, items, split, fit, handed, all, -⟩ :=
    stream_handsOut (s := s) has_root (rows.map .ok)
  rw [materialize_eq_graphOf has_root, all]
  rcases handed.of_rows split with ⟨rfl, rfl⟩ | ⟨e, stopped, run, hr, failed⟩
  · have each : ∀ item ∈ (root.runs good).map (root.graphOf s), ∃ g, item = .ok g := by
      intro item mem
      obtain ⟨run, hr, rfl⟩ := List.mem_map.mp mem
      exact fit run hr
    constructor
    · refine iff_of_true ?_ each
      cases assembled : addRows s root {} (good.map .ok) with
      | ok c => exact ⟨c.finish, graphOf_eq_ok.mpr ⟨c, assembled, rfl⟩⟩
      | error e =>
        obtain ⟨run, hr, failed⟩ := fails e assembled
        obtain ⟨g, graph⟩ := fit run hr
        cases failed.symm.trans graph
    · intro g graph
      obtain ⟨c, assembled, rfl⟩ := graphOf_eq_ok.mp graph
      obtain ⟨gs, graphs, items⟩ := adds_up c assembled
      exact ⟨gs, graphs, congrArg Json.array items⟩
  · -- a run that fails alone fails among all rows
    have unfit : ∀ g, root.graphOf s rows ≠ .ok g := by
      intro g graph
      obtain ⟨c, assembled, -⟩ := graphOf_eq_ok.mp graph
      obtain ⟨gs, graphs, -⟩ := adds_up c assembled
      have mem : root.graphOf s run ∈ gs.map .ok := graphs ▸ List.mem_map.mpr ⟨run, hr, rfl⟩
      obtain ⟨g', -, same⟩ := List.mem_map.mp mem
      cases same.trans failed
    constructor
    · refine iff_of_false (fun ⟨g, graph⟩ => unfit g graph) fun each => ?_
      obtain ⟨g, graph⟩ := each _ stopped
      cases graph
    · exact fun g graph => absurd graph (unfit g)

/-- Rows about a person with two projects, with one about nobody between them, and then about another
person, who lives in another country. -/
def groupedRows : List Row := [
  .ofPairs [("person.id", .int 1), ("person.name", .text "Ada"), ("person.employee.id", .int 1),
    ("home.country.code", .text "PT"), ("projects.id", .int 7)],
  .ofPairs [("person.name", .text "nobody")],
  .ofPairs [("person.id", .int 1), ("person.name", .text "Ada"), ("person.employee.id", .int 1),
    ("home.country.code", .text "PT"), ("projects.id", .int 8)],
  .ofPairs [("person.id", .int 2), ("person.name", .text "Bo"),
    ("home.country.code", .text "ES")]]

theorem stream_adds_up_staff : ∃ p g, ∃ gs : List Graph, Plan.build staff "Person" = .ok p ∧
    p.materialize staff (groupedRows.map .ok) = .ok g ∧ g.rootIds = [0, 4] ∧
    p.stream staff (groupedRows.map .ok) = gs.map .ok ∧
    g.toJson = .array (gs.flatMap (·.toJson.items)) := by
  obtain ⟨p, built, found⟩ := ok_of_map (x := Plan.build staff "Person")
    (f := fun p => (p.root.map fun root => groupedRows.filterMap root.keyIn,
      p.root.all fun root => groupedRows.all fun row => groupedRows.all fun row' =>
        p.entities.all fun e => (keyOf? e.head e.members row).isNone ||
          keyOf? e.head e.members row != keyOf? e.head e.members row' ||
          root.keyIn row == root.keyIn row',
      (p.materialize staff (groupedRows.map .ok)).toOption.map (·.rootIds)))
    (b := (some [⟨[.atom (.integer 1)]⟩, ⟨[.atom (.integer 1)]⟩, ⟨[.atom (.integer 2)]⟩], true,
      some [0, 4])) (by decide +kernel)
  obtain ⟨keys, common, shape⟩ : _ ∧ _ ∧ _ := by simpa only [Prod.mk.injEq] using found
  obtain ⟨root, has_root, wired⟩ := wired_of_build built
  have grouped : ∀ root, p.root = some root → root.Grouped groupedRows := by
    intro root has_root
    rw [has_root] at keys
    have root_keys : groupedRows.filterMap root.keyIn = _ := Option.some.inj keys
    refine Entity.grouped_of_keys fun key other sub => ?_
    rw [root_keys] at sub
    have three := sub.eq_of_length rfl
    simp only [List.cons.injEq] at three
    exact absurd (three.1.symm.trans three.2.2.1) (by decide)
  have separate : ∀ root, p.root = some root → root.Separate groupedRows := by
    intro root' same
    obtain rfl := Option.some.inj (has_root.symm.trans same)
    refine separate_of_keys wired fun row hr row' hr' e he key here here' => ?_
    rw [has_root] at common
    have pair := List.all_eq_true.mp (List.all_eq_true.mp (List.all_eq_true.mp common row hr) row' hr')
      e he
    simpa [here, here'] using pair
  obtain ⟨-, agree⟩ := Plan.stream_adds_up built grouped separate
  obtain ⟨g, run, roots⟩ := ok_of_map shape
  obtain ⟨gs, handed, json⟩ := agree g run
  exact ⟨p, g, gs, built, run, roots, handed, json⟩

end Orm
