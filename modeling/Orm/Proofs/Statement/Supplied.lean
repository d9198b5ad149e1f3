import Mathlib.Data.List.Flatten
import Orm.Proofs.Statement.Verbatim
import Orm.Proofs.Sql.Rebinding

/-!
# `Proofs.Statement.Supplied` — what becomes of the values a caller supplies

A caller supplies values with conditions, grouping terms and ordering terms. On the way into the
statement these are put in parentheses, joined with separators and put behind keywords, and none of
that loses a value or changes the order. One step does: a condition that is blank is left out, and
its values are left out with it. A blank term is not left out, so that its values are counted.

The number of positional markers in the whole text is compared with the number of values that are
left. So the values of a blank condition are lost without an error, and all others stand in the places
of the positional markers, in order.

## Contents
- **Values.** `Clauses.supplied`, `Clauses.withoutBlank`, `supplied_withoutBlank_iff`.
- **Assembling.** `params_assemble`, `render_withoutBlank`.
- **Places.** `Scan.received`, `received_markerValues`.
- **The theorem.** `Plan.Scans`, `Plan.render_keeps_iff`.
-/

namespace Orm

open Text Sql Plan

/-! ## Values -/

/-- The values of the conditions and terms of a caller, in the order of the statement. -/
def Clauses.supplied (c : Clauses) : List Value :=
  c.filters.flatMap (·.params) ++ (c.groupBy.flatMap (·.params) ++ c.orderBy.flatMap (·.params))

/-- The clauses less the conditions that are blank. -/
def Clauses.withoutBlank (c : Clauses) : Clauses :=
  { c with filters := c.filters.filter (!·.isBlank) }

/-- The values of some fragments are those of all exactly if the others have none. -/
theorem flatMap_params_filter_iff {fs : List Fragment} {kept : Fragment → Bool} :
    (fs.filter kept).flatMap (·.params) = fs.flatMap (·.params) ↔
      ∀ f ∈ fs, kept f = false → f.params = [] := by
  induction fs with
  | nil => simp
  | cons f rest ih =>
    cases here : kept f with
    | true => simp [here, ih]
    | false =>
      simp only [List.filter_cons, here, Bool.false_eq_true, if_false, List.flatMap_cons,
        List.forall_mem_cons, forall_const]
      constructor
      · intro same
        -- The values of the others are not more than those behind.
        have fewer : ((rest.filter kept).flatMap (·.params)).length ≤
            (rest.flatMap (·.params)).length :=
          (List.filter_sublist.flatMap _).length_le
        have none : f.params = [] := by
          apply List.eq_nil_of_length_eq_zero
          have lengths := congrArg List.length same
          rw [List.length_append] at lengths
          omega
        rw [none, List.nil_append] at same
        exact ⟨none, ih.mp same⟩
      · rintro ⟨none, others⟩
        rw [none, List.nil_append]
        exact ih.mpr others

/-- **The values of blank conditions are those that are left out.** -/
theorem supplied_withoutBlank_iff {c : Clauses} :
    c.withoutBlank.supplied = c.supplied ↔ ∀ f ∈ c.filters, f.isBlank → f.params = [] := by
  unfold Clauses.supplied Clauses.withoutBlank
  rw [List.append_left_inj, flatMap_params_filter_iff]
  simp

/-! ## Assembling -/

section

variable {p : Plan} {d : Dialect} {c : Clauses}

theorem params_joinPieces (joined : List Alias) :
    (joinPieces d joined).flatMap (·.params) =
      joined.flatMap fun a => a.join.toList.flatMap fun j => j.restriction.toList.flatMap (·.bound) := by
  induction joined with
  | nil => rfl
  | cons a rest ih =>
    unfold joinPieces at ih ⊢
    cases hj : a.join with
    | none => simpa [hj] using ih
    | some j =>
      have own : (joinPiece d a j).params = j.restriction.toList.flatMap (·.bound) := by
        unfold joinPiece
        cases j.restriction with
        | none => rfl
        | some r => simp [Fragment.append, Fragment.plain, restrictionPiece, Restriction.bound]
      simp [hj, own, ih]

/-- Conditions keep their values, in parentheses and without. -/
theorem params_wherePiece :
    (p.wherePiece d c).flatMap (·.params) =
      p.restriction.toList.flatMap (·.bound) ++ c.withoutBlank.filters.flatMap (·.params) := by
  have limits : ((p.restriction.map (restrictionPiece d)).toList).flatMap (·.params) =
      p.restriction.toList.flatMap (·.bound) := by
    cases p.restriction with
    | none => rfl
    | some r => simp [restrictionPiece, Restriction.bound]
  have all : (p.wherePiece d c).flatMap (·.params) =
      ((p.restriction.map (restrictionPiece d)).toList ++
        c.filters.filter (!·.isBlank)).flatMap (·.params) := by
    simp only [wherePiece]
    split
    · next none => simp [none]
    · next condition one => simp [one, Fragment.append, Fragment.plain]
    · next conditions =>
      simp [Fragment.append, Fragment.plain, Fragment.parenthesized, Fragment.mapText,
        List.flatMap_map]
  rw [all, List.flatMap_append, limits]
  rfl

theorem params_listPiece (keyword : String) (terms : List Fragment) :
    (listPiece keyword terms).flatMap (·.params) = terms.flatMap (·.params) := by
  cases terms with
  | nil => rfl
  | cons term rest => simp [listPiece, Fragment.append, Fragment.plain]

theorem params_groupPiece : (p.groupPiece d c).flatMap (·.params) = c.groupBy.flatMap (·.params) := by
  rw [groupPiece, params_listPiece, List.flatMap_append]
  simp [Fragment.plain, List.flatMap_map]

theorem params_limitPieces : (limitPieces c).flatMap (·.params) = [] := by
  unfold limitPieces
  cases c.limit <;> cases c.offset <;> simp [Fragment.plain]

/-- **Assembling keeps the order of values**, and all of them but those of blank conditions. -/
theorem params_assemble {a : Fragment} (h : p.assemble d c = .ok a) :
    a.params = p.limits ++ c.withoutBlank.supplied := by
  unfold assemble at h
  cases aliases : p.aliases with
  | nil =>
    rw [aliases] at h
    cases h
  | cons root joined =>
    rw [aliases] at h
    obtain rfl := Except.ok.inj h
    have fixed : [p.selectPiece d, fromPiece d root].flatMap (·.params) = [] := rfl
    have extra : (p.extraJoins.map Fragment.plain).flatMap (·.params) = [] := by
      simp [Fragment.plain, List.flatMap_map]
    rw [Fragment.params_join, pieces]
    simp only [List.flatMap_append, fixed, extra, params_joinPieces, params_wherePiece,
      params_groupPiece, params_limitPieces, orderPiece, params_listPiece, List.nil_append,
      List.append_nil, Plan.limits, Clauses.supplied, aliases, List.tail_cons, List.append_assoc]
    rfl

/-- Blank conditions have no part in a statement. -/
theorem render_withoutBlank : p.render d c.withoutBlank = p.render d c := by
  have conditions : p.wherePiece d c.withoutBlank = p.wherePiece d c := by
    simp [wherePiece, Clauses.withoutBlank, List.filter_filter]
  have assembled : p.assemble d c.withoutBlank = p.assemble d c := by
    unfold assemble pieces
    rw [conditions]
    rfl
  unfold render
  rw [assembled]
  rfl

end

/-! ## Places -/

/-- The values in the places of positional markers. -/
def Sql.Scan.received (s : Scan) (params : List Value) : List Value :=
  ((s.markers.zip params).filter (·.1.isPositional)).map (·.2)

section

variable {named : List (String × Value)} {positional : List Value} {ls : List Lexeme}

/-- **Positional markers receive the positional values**, all of them and in order. -/
theorem received_markerValues (h : Binds named positional ls) (offset : Nat) :
    (((markersFrom offset ls).zip (markerValues named positional ls)).filter
      (·.1.isPositional)).map (·.2) = positional := by
  induction ls generalizing positional offset with
  | nil =>
    have none : positional = [] := List.eq_nil_of_length_eq_zero h.count.symm
    simp [markersFrom, none]
  | cons l rest ih =>
    cases l with
    | positional =>
      obtain ⟨value, more, rfl, later⟩ := h.of_positional
      simp [markersFrom, markerValues, List.filter_cons, ih later]
    | named n =>
      obtain ⟨value, found⟩ := Option.isSome_iff_exists.mp (h.bound n List.mem_cons_self)
      simp [markersFrom, markerValues, found, ih (h.of_cons (by simp))]
    | _ => exact ih (h.of_cons (by simp)) (offset + byteSize (Lexeme.chars _))

/-- Where there is no value more than there are markers, the received ones are among them. -/
theorem Sql.Scan.received_sublist {s : Scan} {params : List Value}
    (enough : params.length ≤ s.markers.length) : (s.received params).Sublist params := by
  have behind : (s.markers.zip params).map (·.2) = params := List.map_snd_zip enough
  have inside : (s.received params).Sublist ((s.markers.zip params).map (·.2)) :=
    List.filter_sublist.map _
  rwa [behind] at inside

end

/-! ## The theorem -/

/-- What is scanned in the text of a statement when its references are resolved. -/
def Plan.Scans (p : Plan) (d : Dialect) (c : Clauses) (s : Scan) : Prop :=
  ∃ a text, p.assemble d c = .ok a ∧ p.resolveText d a.text = .ok text ∧ scan text = .ok s

/-- **Values are lost with blank conditions and nowhere else.** Where the positional markers are not as
many as the values that are left, rendering fails. Where it succeeds, these values stand in the places
of the positional markers, in order; they are all that were supplied exactly if no blank condition has
a value. With blank conditions a statement is rendered as without. -/
theorem Plan.render_keeps_iff (p : Plan) (d : Dialect) (c : Clauses) :
    (∀ s, p.Scans d c s → s.positionalCount ≠ (p.limits ++ c.withoutBlank.supplied).length →
      p.render d c =
        .error (.markerCount s.positionalCount (p.limits ++ c.withoutBlank.supplied).length)) ∧
    (∀ st, p.render d c = .ok st → ∃ s, p.Scans d c s ∧
      s.received st.params = p.limits ++ c.withoutBlank.supplied ∧
      (p.limits ++ c.withoutBlank.supplied).Sublist st.params ∧
      (s.received st.params = p.limits ++ c.supplied ↔
        ∀ f ∈ c.filters, f.isBlank → f.params = [])) ∧
    p.render d c.withoutBlank = p.render d c := by
  refine ⟨?_, ?_, render_withoutBlank⟩
  · rintro s ⟨a, text, assembled, resolved, scanned⟩ other
    obtain ⟨ls, read, rfl⟩ := scan_eq_ok_iff.mp scanned
    rw [Scan.positionalCount_eq, countP_markersFrom, ← params_assemble assembled] at other ⊢
    unfold render
    rw [assembled]
    show (p.resolveText d a.text >>= fun text => bindParameters d c.named a.params text) = _
    rw [resolved]
    exact bindParameters_of_count_ne read other
  · intro st rendered
    obtain ⟨a, assembled, more⟩ := ok_bind.mp rendered
    obtain ⟨text, resolved, bound⟩ := ok_bind.mp more
    obtain ⟨ls, read, binds, rfl⟩ := bindParameters_eq_ok_iff.mp bound
    rw [params_assemble assembled] at binds ⊢
    have received := received_markerValues binds 0
    have enough : (markerValues c.named (p.limits ++ c.withoutBlank.supplied) ls).length ≤
        (markersFrom 0 ls).length := by
      rw [length_markerValues binds, length_markersFrom]
    refine ⟨⟨markersFrom 0 ls, mergeTouching (literalsFrom 0 ls)⟩, ?_, received, ?_, ?_⟩
    · exact ⟨a, text, assembled, resolved, scan_eq_ok_iff.mpr ⟨ls, read, rfl⟩⟩
    · have inside := Scan.received_sublist
        (s := ⟨markersFrom 0 ls, mergeTouching (literalsFrom 0 ls)⟩) enough
      rwa [Scan.received, received] at inside
    · rw [Scan.received, received, List.append_right_inj, supplied_withoutBlank_iff]

/-- People with a number. -/
def people : Schema where
  sources := [⟨.runtime, [
    { name := "Person", table := some ⟨none, "person"⟩,
      fields := [{ name := "id", type := .value .int, attrs := { id := some true } }] }]⟩]

/-- A blank condition with a value. -/
def blankCondition : Clauses where
  filters := [⟨"  ", [.int 5]⟩]

/-- A value without a marker is lost, and there is no error. -/
theorem render_keeps_iff_people : ∃ p st s, Plan.build people "Person" = .ok p ∧
    p.render .postgres blankCondition = .ok st ∧ st.params = [] ∧
    blankCondition.supplied ≠ [] ∧ p.Scans .postgres blankCondition s ∧
    s.received st.params ≠ p.limits ++ blankCondition.supplied := by
  obtain ⟨p, built, found⟩ := ok_of_map (x := Plan.build people "Person")
    (f := fun p => (p.render .postgres blankCondition).toOption.map (·.params.length)) (b := some 0)
    (by decide +kernel)
  cases rendered : p.render .postgres blankCondition with
  | error e => simp [rendered, Except.toOption] at found
  | ok st =>
    have none : st.params = [] := by simpa [rendered, Except.toOption] using found
    obtain ⟨s, scans, -, -, all⟩ := (Plan.render_keeps_iff p .postgres blankCondition).2.1 st rendered
    refine ⟨p, st, s, built, rendered, none, by simp [Clauses.supplied, blankCondition], scans, ?_⟩
    intro same
    have empty := all.mp same ⟨"  ", [.int 5]⟩ List.mem_cons_self (by decide)
    cases empty

end Orm
