import Orm.Proofs.Assembly.Discriminators
import Orm.Proofs.Plan.SelectList
import Orm.Proofs.Statement.Lines
import Orm.Proofs.Statement.Supplied

/-!
# `Proofs.Statement.Limits` — limits in statements and types told by rows

The names that the rows of an entity are limited to travel to the database as values of the statement,
and the candidates among which a row of the entity is told travel with the plan. Both come from the
layout of the entity's type. So a row whose discriminator satisfies the limit is one of a candidate that
is registered under its name.

The discriminator itself travels under a label of the select list, and there the first request counts.
A field that is walked earlier may have taken the label. Then the database limits one column and the
types are told by another, and a row that satisfies the limit may fall back to the declared type.

## Contents
- **Limits.** `exists_scan_of_render`, `Plan.CarriesLimit`, `carriesLimit_of_build`.
- **Rows.** `Plan.delivered`, `getOrNull_delivered`, `candidate_of_limit`, `Plan.TellsLimited`,
  `tellsLimited_iff`.
- **The theorem.** `Plan.limit_tells_iff`.
-/

namespace Orm

open Text Sql Plan Schema Assembly

/-! ## Limits -/

/-- The values of a statement that is rendered stand in the places of its positional markers. -/
theorem exists_scan_of_render {p : Plan} {d : Dialect} {c : Clauses} {st : Statement} {whole : Fragment}
    (assembled : p.assemble d c = .ok whole) (rendered : p.render d c = .ok st) :
    ∃ scan, p.Scans d c scan ∧ scan.received st.params = whole.params := by
  obtain ⟨whole', assembled', more⟩ := ok_bind.mp rendered
  cases assembled.symm.trans assembled'
  obtain ⟨text, resolved, bound⟩ := ok_bind.mp more
  obtain ⟨ls, read, binds, rfl⟩ := bindParameters_eq_ok_iff.mp bound
  exact ⟨⟨markersFrom 0 ls, mergeTouching (literalsFrom 0 ls)⟩,
    ⟨whole, text, assembled, resolved, scan_eq_ok_iff.mpr ⟨ls, read, rfl⟩⟩,
    received_markerValues binds 0⟩

/-- The statements of a plan limit the rows of a table to some names. The limit stands in a line of its
own table, with the names as its values, and where a statement is rendered they are handed over among
the other values in order. When names and quotes are plain and every raw text can be read and bound on
its own, the statement is rendered, and the placeholders of the limit stand for the names. -/
structure Plan.CarriesLimit (p : Plan) (d : Dialect) (c : Clauses) (a : Alias) (r : Restriction) :
    Prop where
  assembled : ∃ front back : Fragment, p.assemble d c = .ok (front.append
      ((Fragment.plain "\n").append ((limitLine d c a r).append back))) ∧
    ∀ st, p.render d c = .ok st → ∃ scan, p.Scans d c scan ∧ scan.received st.params =
      front.params ++ (r.bound ++ (limitFoot c a).params ++ back.params)
  rendered : isPlain d.quote ∧ ¬ isNameChar d.quote →
    (∀ i ∈ p.identifiers, ∀ part ∈ i.parts, ∀ ch ∈ part.toList, isPlain ch) →
    (∀ column ∈ p.storedColumns, ∀ ch ∈ column.toList, isPlain ch) →
    (∀ f ∈ p.texts c, f.Bindable p c.named) →
    ∃ st head limit foot, p.render d c = .ok st ∧ p.HasLimit d c a r st head limit foot ∧
      (a.texts = [] → head = limitHead d c a)

theorem carriesLimit_of_build {s : Schema} {name : String} {p : Plan}
    (built : Plan.build s name = .ok p) {a : Alias} (ha : a ∈ p.aliases) {r : Restriction}
    (limit : p.limitOf a = some r) (d : Dialect) (c : Clauses) : p.CarriesLimit d c a r := by
  constructor
  case assembled =>
    obtain ⟨before, after, assembled, -⟩ := exists_cut_of_limit (d := d) (c := c) built ha limit
    exact ⟨_, _, assembled, fun st rendered => exists_scan_of_render assembled rendered⟩
  case rendered =>
    intro quote names columns texts
    obtain ⟨st, head, limit, foot, rendered, has⟩ :=
      exists_limit_of_build built quote names columns texts ha limit
    refine ⟨st, head, limit, foot, rendered, has, fun rawless => ?_⟩
    have own := (allInert_of_isPlain quote.1 names).of_mem ha
    exact has.head.eq_of_inert (inert_limitHead own rawless c)

/-! ## Rows -/

/-- The row of a result, where the expressions have some values in a row of the joined tables. Raw texts
are not looked into, so any expressions may have any values. -/
def Plan.delivered (p : Plan) (value : Expression → Value) : Row :=
  .ofPairs (p.select.map fun item => (item.label, value item.expression))

/-- **A result has under a label what was first asked for under it.** -/
theorem Plan.Derivation.getOrNull_delivered {s : Schema} {name : String} {p : Plan}
    {asked : List SelectItem} (h : Derivation s name p asked) {label : String} {first : SelectItem}
    (found : asked.find? (·.label == label) = some first) (value : Expression → Value) :
    (p.delivered value).getOrNull label = value first.expression := by
  have same : first.label = label := by simpa using List.find?_some found
  rw [← h.find?_select] at found
  refine Row.getOrNull_ofPairs ?_ (List.mem_map.mpr ⟨first, List.mem_of_find?_eq_some found, ?_⟩)
  · rw [List.map_map]
    exact h.nodup_labels
  · rw [same]

/-- A row whose column holds one of the names that an entity is limited to tells a candidate of that
name, and an object that is made of it has that type. -/
theorem candidate_of_limit {s : Schema} {e : Entity} {told : DiscriminatorPlan}
    (h : e.Discriminated s told) {row : Row} {n : String} (stored : row.getOrNull told.label = .text n)
    (among : n ∈ told.candidates.map (·.registeredName)) :
    ∃ t ∈ told.candidates, t.registeredName = n ∧ told.candidate? n = some t ∧
      typeOf e.head row = t ∧
      ∀ key i, create s row e.head e.members key = .ok i → i.type = t := by
  obtain ⟨u, hu, rfl⟩ := List.mem_map.mp among
  have named : storedName? (row.getOrNull told.label) = some u.registeredName := by rw [stored]; rfl
  have found := h.candidate?_typeOf hu named
  obtain ⟨mem, registered⟩ := mem_of_candidate? found
  refine ⟨_, mem, registered, found, rfl, fun key i made => ?_⟩
  obtain ⟨-, -, type⟩ := eq_of_create made
  exact type

/-- The rows that a limit lets through tell a candidate: where the limited column holds one of the names,
whatever the other expressions hold, the result tells a candidate that is registered under it, and what
is made of the result is an object of that type. -/
def Plan.TellsLimited (s : Schema) (p : Plan) (e : Entity) (told : DiscriminatorPlan)
    (r : Restriction) : Prop :=
  ∀ (value : Expression → Value) (n : String), value (.column r.column) = .text n → n ∈ r.values →
    ∃ t ∈ told.candidates, t.registeredName = n ∧
      (storedName? ((p.delivered value).getOrNull told.label)).bind told.candidate? = some t ∧
      typeOf e.head (p.delivered value) = t ∧
      ∀ key i, create s (p.delivered value) e.head e.members key = .ok i → i.type = t

/-- The rows that a limit lets through tell a candidate just if what tells the types is the limited
column. In a row that is NULL apart from it, any other expression tells nothing. -/
theorem tellsLimited_iff {s : Schema} {p : Plan} {e : Entity} {told : DiscriminatorPlan}
    (h : e.Discriminated s told) {r : Restriction}
    (names : r.values = told.candidates.map (·.registeredName)) {x : Expression}
    (reads : ∀ value, (p.delivered value).getOrNull told.label = value x) :
    p.TellsLimited s e told r ↔ x = .column r.column := by
  constructor
  · intro tells
    by_contra other
    obtain ⟨below, -, candidates⟩ := h.candidates
    let value : Expression → Value := fun y =>
      if y = .column r.column then .text e.head.declared.registeredName else .null
    have listed : e.head.declared.registeredName ∈ r.values := by
      rw [names, candidates]
      exact List.mem_cons_self
    obtain ⟨t, -, -, found, -⟩ := tells value _ (if_pos rfl) listed
    have null : value x = .null := if_neg other
    rw [reads, null] at found
    cases found
  · rintro rfl value n stored among
    obtain ⟨t, ht, registered, found, type, made⟩ :=
      candidate_of_limit h ((reads value).trans stored) (names ▸ among)
    refine ⟨t, ht, registered, ?_, type, made⟩
    rw [reads, stored]
    exact found

/-! ## The theorem -/

/-- **When the limit on the rows of an entity and the types that its rows tell agree.** The rows of the
base of a discriminated hierarchy are not limited. Those of any other of its types are limited to the
names that the candidates of the entity are registered under, in the column that tells them apart: in
the first of the conditions for the entity of the root, and in its join for any other. A row of a result
that has one of these names under the label of the discriminator tells the first candidate of that name,
and is made an object of that type.

But the label may have been asked for before, by a field that is walked earlier. The second request for
it is dropped, the limit stays, and the result tells types by the value of that field. So the rows that
the limit lets through tell a candidate just if the first request for the label is the one for the
limited column. -/
theorem Plan.limit_tells_iff {s : Schema} {name : String} {p : Plan}
    (built : Plan.build s name = .ok p) {e : Entity} (he : e ∈ p.entities) {base : TypeModel}
    (based : e.head.declared.lineage.find? (·.discriminator.isSome) = some base) :
    ∃ told a asked, e.head.discriminator = some told ∧ p.find? e.head.path = some a ∧
      a.role = .entity e.head.declared ∧ (a.join = none ↔ p.root = some e) ∧
      told.label = e.head.path ++ "." ++ base.discriminator.getD "" ∧
      p.limitOf a = (if base.name = e.head.declared.name then none
        else some ⟨⟨e.head.path, base.discriminator.getD ""⟩,
          told.candidates.map (·.registeredName)⟩) ∧
      Nonempty (Derivation s name p asked) ∧ (∀ item, item ∈ asked ↔ p.Asks item) ∧
      ∀ r, p.limitOf a = some r →
        (∀ d c, p.CarriesLimit d c a r) ∧
        (∀ row n, row.getOrNull told.label = .text n → n ∈ r.values →
          ∃ t ∈ told.candidates, t.registeredName = n ∧ told.candidate? n = some t ∧
            typeOf e.head row = t ∧
            ∀ key i, create s row e.head e.members key = .ok i → i.type = t) ∧
        p.Asks ⟨.column r.column, told.label⟩ ∧
        ∃ first, asked.find? (·.label == told.label) = some first ∧
          p.select.find? (·.label == told.label) = some first ∧
          (∀ value, typeOf e.head (p.delivered value) =
            ((storedName? (value first.expression)).bind told.candidate?).getD e.head.declared) ∧
          (p.TellsLimited s e told r ↔ first.expression = .column r.column) := by
  obtain ⟨root, -, wired⟩ := wired_of_build built
  obtain ⟨told, tells⟩ := (wired.walked e he).exists_discriminator based
  have discriminated := (wired.walked e he).discriminated tells
  obtain ⟨base', based', label⟩ := discriminated.label
  cases based.symm.trans based'
  -- the limit and the candidates come from one list of descendants
  obtain ⟨layout, a, hosted⟩ := hosted_of_build built he
  obtain ⟨below, descend, candidates⟩ := discriminated.candidates
  obtain ⟨below', descend', limit⟩ := entityRestriction_of_layout hosted.lays based e.head.path
  obtain rfl : below' = below := Except.ok.inj (descend'.symm.trans descend)
  rw [← candidates, ← hosted.limit] at limit
  obtain ⟨asked, ⟨derivation⟩⟩ := derivation_of_build built
  refine ⟨told, a, asked, tells, hosted.found, hosted.role, hosted.root, label, limit, ⟨derivation⟩,
    derivation.asked_iff, fun r limited => ?_⟩
  obtain rfl : r = ⟨⟨e.head.path, base.discriminator.getD ""⟩,
      told.candidates.map (·.registeredName)⟩ := by
    rw [limited] at limit
    split at limit
    · cases limit
    · exact Option.some.inj limit
  obtain ⟨ha, -⟩ := path_of_find? hosted.found
  have asks : p.Asks ⟨.column ⟨e.head.path, base.discriminator.getD ""⟩, told.label⟩ :=
    ⟨e, he, .discriminator tells label⟩
  have requested : (asked.find? (·.label == told.label)).isSome :=
    List.find?_isSome.mpr ⟨_, (derivation.asked_iff _).mpr asks, beq_self_eq_true told.label⟩
  obtain ⟨first, found⟩ := Option.isSome_iff_exists.mp requested
  have reads := derivation.getOrNull_delivered found
  refine ⟨carriesLimit_of_build built ha limited,
    fun row n stored among => candidate_of_limit discriminated stored among, asks, first, found,
    (derivation.find?_select _).trans found, fun value => ?_, tellsLimited_iff discriminated rfl reads⟩
  rw [discriminated.told, discriminatedType, reads, discriminated.fallback]
  rfl

/-- A trip goes with a vehicle and a driver. What a car's own cover is like is a field of the value
object, and trucks are insured by a policy of the fleet, whose kind is told by a column of that name. -/
def journeys : Schema where
  sources := [⟨.runtime, [
    { name := "Trip", table := some ⟨none, "trip"⟩,
      fields := [
        { name := "id", type := .value .int, attrs := { id := some true } },
        { name := "vehicle", type := .named "Vehicle" },
        { name := "driver", type := .named "Driver" }] },
    { name := "Vehicle", table := some ⟨none, "vehicle"⟩, discriminator := some "kind",
      subclasses := ["Car", "Truck"],
      fields := [{ name := "id", type := .value .int, attrs := { id := some true } }] },
    { name := "Car", superclass := some "Vehicle", discriminatorValue := some "car",
      fields := [{ name := "insurance", type := .named "Cover" }] },
    { name := "Truck", superclass := some "Vehicle", discriminatorValue := some "truck",
      fields := [{ name := "insurance", type := .named "FleetPolicy" }] },
    { name := "Cover", embeddable := true, fields := [{ name := "kind", type := .value .text }] },
    { name := "Policy", table := some ⟨none, "policy"⟩, discriminator := some "kind",
      subclasses := ["FleetPolicy"],
      fields := [{ name := "id", type := .value .int, attrs := { id := some true } }] },
    { name := "FleetPolicy", superclass := some "Policy", discriminatorValue := some "fleet",
      subclasses := ["LeasedPolicy"] },
    { name := "LeasedPolicy", superclass := some "FleetPolicy", discriminatorValue := some "leased" },
    { name := "Person", table := some ⟨none, "person"⟩, discriminator := some "role",
      subclasses := ["Driver"],
      fields := [{ name := "id", type := .value .int, attrs := { id := some true } }] },
    { name := "Driver", superclass := some "Person", discriminatorValue := some "driver" }]⟩]

/-- Drivers are told by the column that they are limited in. The policies of trucks are limited in their
kind and told by that of a car's cover, so where that is NULL, as it is for a truck, a leased policy
becomes one of the fleet. -/
theorem limit_tells_iff_journeys : ∃ p, Plan.build journeys "Trip" = .ok p ∧
    ∀ r x declared, (r, x, declared) ∈
        [(⟨⟨"vehicle.insurance", "kind"⟩, ["fleet", "leased"]⟩,
            Expression.column ⟨"vehicle", "insurance_kind"⟩, "FleetPolicy"),
          (⟨⟨"driver", "role"⟩, ["driver"]⟩, .column ⟨"driver", "role"⟩, "Driver")] →
      ∃ e ∈ p.entities, ∃ told a, e.head.discriminator = some told ∧
        p.find? r.column.path = some a ∧ p.limitOf a = some r ∧
        (∃ st limit foot, p.render .postgres {} = .ok st ∧
          p.HasLimit .postgres {} a r st (limitHead .postgres {} a) limit foot) ∧
        (p.TellsLimited journeys e told r ↔ x = .column r.column) ∧
        ∀ value, value x = .null → (typeOf e.head (p.delivered value)).name = declared := by
  obtain ⟨p, built, shown⟩ := ok_of_map (x := Plan.build journeys "Trip")
    (f := fun p => (p.entities.filterMap fun e : Entity =>
        (e.head.declared.lineage.find? (·.discriminator.isSome)).bind fun base =>
          e.head.discriminator.bind fun told =>
            (p.select.find? (·.label == told.label)).bind fun item =>
              if base.name ≠ e.head.declared.name then
                some (Restriction.mk ⟨e.head.path, base.discriminator.getD ""⟩
                  (told.candidates.map (·.registeredName)), item.expression, e.head.declared.name)
              else none,
      p.identifiers.all (fun i => i.parts.all fun part => part.toList.all isPlain) &&
        p.storedColumns.all (fun column => column.toList.all isPlain) && (p.texts {}).isEmpty))
    (b := ([(⟨⟨"vehicle.insurance", "kind"⟩, ["fleet", "leased"]⟩,
        .column ⟨"vehicle", "insurance_kind"⟩, "FleetPolicy"),
      (⟨⟨"driver", "role"⟩, ["driver"]⟩, .column ⟨"driver", "role"⟩, "Driver")], true))
    (by decide +kernel)
  obtain ⟨shown, plain⟩ := Prod.mk.inj shown
  obtain ⟨⟨plainNames, columns⟩, rawless⟩ : (_ ∧ _) ∧ p.texts {} = [] := by simpa using plain
  refine ⟨p, built, fun r x declared mem => ?_⟩
  rw [← shown] at mem
  obtain ⟨e, he, described⟩ := List.mem_filterMap.mp mem
  obtain ⟨base, based, described⟩ := Option.bind_eq_some_iff.mp described
  obtain ⟨told, tells, described⟩ := Option.bind_eq_some_iff.mp described
  obtain ⟨item, selected, described⟩ := Option.bind_eq_some_iff.mp described
  split at described
  next other =>
    simp only [Option.some.injEq, Prod.mk.injEq] at described
    obtain ⟨rfl, rfl, rfl⟩ := described
    obtain ⟨told', a, asked, tells', found, -, -, -, limit, -, -, agree⟩ :=
      Plan.limit_tells_iff built he based
    cases tells.symm.trans tells'
    rw [if_neg other] at limit
    obtain ⟨carries, -, -, first, -, selected', type, tellsLimited⟩ := agree _ limit
    cases selected.symm.trans selected'
    refine ⟨e, he, told, a, tells, found, limit, ?_, tellsLimited, fun value null => ?_⟩
    · obtain ⟨st, head, limit, foot, rendered, has, written⟩ :=
        (carries .postgres {}).rendered (by decide) plainNames columns (by simp [rawless])
      rw [written (texts_of_rawless rawless (path_of_find? found).1)] at has
      exact ⟨st, limit, foot, rendered, has⟩
    · rw [type, null]
      rfl
  next => cases described

end Orm
