import Orm.Proofs.Assembly.Slots

/-!
# `Proofs.Assembly.Discriminators` — types told by a column

In a discriminated hierarchy a column names the type of each row. The name is looked for among the
names that the candidates are registered under, and the first that is so registered is taken; a name
of none of them tells the declared type. Nothing that builds a plan compares these names with each
other, so a candidate is told by its own name just if none before it has the same.

What the column holds need not be a text. Integers of every width are looked up as the text of their
digits. A decimal is rendered like a string, and its digits come in quotes.

## Contents
- **Discriminated entities.** `DiscriminatorPlan.candidate?`, `Entity.Discriminated`,
  `Entity.Walked.discriminated`, `Entity.Walked.exists_discriminator`.
- **Names.** `candidate?_eq_some_iff`, `typeOf_of_name`, `exists_row`.
- **Registered names.** `Plan.registeredName_tells_iff`.
- **Integers.** `integerText`, `quotedText`, `storedName?_of_integer`, `storedName?_decimal`.
- **Stored integers.** `Value.Delivers`, `Plan.integer_tells_iff`.
-/

namespace Orm

open Schema Plan Assembly Text

/-! ## Discriminated entities -/

/-- The first candidate that is registered under a name. -/
def Plan.DiscriminatorPlan.candidate? (d : DiscriminatorPlan) (name : String) : Option TypeModel :=
  d.candidates.find? (·.registeredName == name)

/-- How an entity of a discriminated hierarchy stands in it: rows are told apart by a column that the
base declares, and the candidates are the declared type, to fall back to, and its descendants. -/
structure Plan.Entity.Discriminated (s : Schema) (e : Entity) (d : DiscriminatorPlan) : Prop where
  told : ∀ row, typeOf e.head row = discriminatedType d row
  fallback : d.fallback = e.head.declared
  candidates : ∃ below, s.descendants e.head.declared = .ok below ∧
    d.candidates = e.head.declared :: below
  label : ∃ base, e.head.declared.lineage.find? (·.discriminator.isSome) = some base ∧
    d.label = e.head.path ++ "." ++ base.discriminator.getD ""

theorem typeOf_of_discriminated {e : EntityHead} {d : DiscriminatorPlan}
    (strategy : e.strategy = .discriminated) (tells : e.discriminator = some d) (row : Row) :
    typeOf e row = discriminatedType d row := by
  unfold typeOf
  rw [strategy, tells]

/-- **An entity with a discriminator is one of a discriminated hierarchy.** -/
theorem Plan.Entity.Walked.discriminated {s : Schema} {e : Entity} (walked : e.Walked s)
    {d : DiscriminatorPlan} (hd : e.head.discriminator = some d) : e.Discriminated s d := by
  obtain @⟨name, target, layout, path, _, _, _, _, _, members, _, describes, lays, -⟩ := walked
  obtain ⟨-, declared⟩ := sound_of_layout ⟨name, describes⟩ lays
  obtain ⟨dis, found, same⟩ := Option.map_eq_some_iff.mp hd
  have strategy : layout.strategy = .discriminated := by
    unfold Layout.strategy
    rw [found]
    rfl
  have told := fun row => typeOf_of_discriminated (e := entityHead path layout _) strategy hd row
  subst same
  constructor
  case told => exact told
  case fallback => rfl
  case candidates =>
    obtain ⟨below, family⟩ := family_of_layout ⟨name, describes⟩ lays
    exact ⟨below, family.descendants, family.candidates dis found⟩
  case label =>
    show ∃ base, layout.declared.lineage.find? _ = some base ∧ _
    rw [declared]
    cases laid_of_layout lays with
    | @discriminated base below above home based =>
      cases found
      exact ⟨base, based, rfl⟩
    | vertical => cases found

/-- **An entity of a discriminated hierarchy has a discriminator.** -/
theorem Plan.Entity.Walked.exists_discriminator {s : Schema} {e : Entity} (walked : e.Walked s)
    {base : TypeModel} (based : e.head.declared.lineage.find? (·.discriminator.isSome) = some base) :
    ∃ d, e.head.discriminator = some d := by
  obtain @⟨name, target, layout, path, _, _, _, _, _, members, _, describes, lays, -⟩ := walked
  obtain ⟨-, declared⟩ := sound_of_layout ⟨name, describes⟩ lays
  replace based : layout.declared.lineage.find? _ = some base := based
  rw [declared] at based
  cases laid_of_layout lays with
  | discriminated => exact ⟨_, rfl⟩
  | vertical alone => cases alone.symm.trans based

/-! ## Names -/

section

variable {s : Schema} {e : Entity} {d : DiscriminatorPlan} {row : Row} {name : String} {t : TypeModel}

/-- The candidate that is found under a name stands before all others of that name. -/
theorem candidate?_eq_some_iff : d.candidate? name = some t ↔
    t.registeredName = name ∧ ∃ before after, d.candidates = before ++ t :: after ∧
      ∀ u ∈ before, u.registeredName ≠ name := by
  unfold DiscriminatorPlan.candidate?
  rw [List.find?_eq_some_iff_append, beq_iff_eq]
  simp only [Bool.not_eq_true', beq_eq_false_iff_ne]

theorem candidate?_eq_none_iff :
    d.candidate? name = none ↔ ∀ t ∈ d.candidates, t.registeredName ≠ name := by
  unfold DiscriminatorPlan.candidate?
  rw [List.find?_eq_none]
  exact forall₂_congr fun t _ => not_congr beq_iff_eq

theorem mem_of_candidate? (h : d.candidate? name = some t) :
    t ∈ d.candidates ∧ t.registeredName = name :=
  ⟨List.mem_of_find?_eq_some h, (candidate?_eq_some_iff.mp h).1⟩

/-- A candidate is found under the name of one. -/
theorem exists_candidate? (ht : t ∈ d.candidates) : ∃ u, d.candidate? t.registeredName = some u := by
  have found : (d.candidate? t.registeredName).isSome = true :=
    List.find?_isSome.mpr ⟨t, ht, beq_self_eq_true _⟩
  exact Option.isSome_iff_exists.mp found

/-- A row whose column holds a name tells the candidate of that name, or the declared type. -/
theorem Plan.Entity.Discriminated.typeOf_of_name (h : e.Discriminated s d)
    (stored : storedName? (row.getOrNull d.label) = some name) :
    typeOf e.head row = (d.candidate? name).getD d.fallback := by
  rw [h.told, discriminatedType, stored]
  rfl

/-- Where a candidate has the name, the first that has it is told. -/
theorem Plan.Entity.Discriminated.candidate?_typeOf (h : e.Discriminated s d) (ht : t ∈ d.candidates)
    (stored : storedName? (row.getOrNull d.label) = some t.registeredName) :
    d.candidate? t.registeredName = some (typeOf e.head row) := by
  obtain ⟨u, found⟩ := exists_candidate? ht
  rw [h.typeOf_of_name stored, found]
  rfl

/-- Any value may stand in a column. -/
theorem exists_row (label : String) (v : Value) : ∃ row : Row, row.getOrNull label = v := by
  refine ⟨.ofPairs [(label, v)], ?_⟩
  simp [Row.getOrNull, Row.get?, Row.ofPairs, columnPosition?, Row.valueAt]

end

/-! ## Registered names -/

/-- **A candidate is told by its registered name just if it is the first of that name.** Of every
discriminated entity of a plan, a row whose column holds the name of a candidate tells the first
candidate of that name, and the object that is made of it has the fields of that type. So each
candidate is told by its own name exactly if no two of them are registered under one. -/
theorem Plan.registeredName_tells_iff {s : Schema} {name : String} {p : Plan}
    (built : Plan.build s name = .ok p) {e : Entity} (he : e ∈ p.entities) {d : DiscriminatorPlan}
    (hd : e.head.discriminator = some d) :
    (∃ below, s.descendants e.head.declared = .ok below ∧
      d.candidates = e.head.declared :: below) ∧
    (∀ t ∈ d.candidates, ∀ row : Row, row.getOrNull d.label = .text t.registeredName →
      ∃ u before after, d.candidates = before ++ u :: after ∧
        u.registeredName = t.registeredName ∧
        (∀ v ∈ before, v.registeredName ≠ t.registeredName) ∧ typeOf e.head row = u ∧
        (∀ f, f ∈ e.members.fields ∧ u.isA f.owner = true ↔
          f ∈ u.allFields ∧ f.transient = false) ∧
        (∀ key, e.members.readable s row e.head.path (fun f => u.isA f.owner) = true →
          ∃ i, create s row e.head e.members key = .ok i) ∧
        ∀ key i, create s row e.head e.members key = .ok i →
          i.type = u ∧ i.object.typeName = u.name ∧ (s.NamesFields → i.object.NewOf u)) ∧
    ((∀ t ∈ d.candidates, ∀ row : Row, row.getOrNull d.label = .text t.registeredName →
        typeOf e.head row = t) ↔
      ∀ t ∈ d.candidates, ∀ u ∈ d.candidates, t.registeredName = u.registeredName → t = u) := by
  obtain ⟨root, -, wired⟩ := wired_of_build built
  have walked := wired.walked e he
  have discriminated := walked.discriminated hd
  refine ⟨discriminated.candidates, fun t ht row stored => ?_, fun told t ht u hu same => ?_,
    fun distinct t ht row stored => ?_⟩
  · have named : storedName? (row.getOrNull d.label) = some t.registeredName := by rw [stored]; rfl
    have found := discriminated.candidate?_typeOf ht named
    obtain ⟨registered, before, after, split, first⟩ := candidate?_eq_some_iff.mp found
    refine ⟨_, before, after, split, registered, first, rfl, fun f => walked.own_iff row,
      fun key readable => create_ok key readable, fun key i made => ?_⟩
    obtain ⟨-, -, type⟩ := eq_of_create made
    refine ⟨type, ?_, fun named => newOf_of_create named walked made⟩
    obtain ⟨_, -, made⟩ := ok_bind.mp made
    cases made
    rfl
  · obtain ⟨row, stored⟩ := exists_row d.label (.text t.registeredName)
    exact (told t ht row stored).symm.trans (told u hu row (same ▸ stored))
  · have named : storedName? (row.getOrNull d.label) = some t.registeredName := by rw [stored]; rfl
    obtain ⟨mem, registered⟩ := mem_of_candidate? (discriminated.candidate?_typeOf ht named)
    exact distinct _ mem t ht registered

/-- Dogs of the zoo and dogs of the farm are animals; both are registered as dogs. -/
def menagerie : Schema where
  sources := [⟨.runtime, [
    { name := "Animal", table := some ⟨none, "animal"⟩, discriminator := some "kind",
      subclasses := ["zoo.Dog", "farm.Dog"],
      fields := [{ name := "id", type := .value .int, attrs := { id := some true } }] },
    { name := "zoo.Dog", superclass := some "Animal",
      fields := [{ name := "cage", type := .value .text }] },
    { name := "farm.Dog", superclass := some "Animal",
      fields := [{ name := "herd", type := .value .text }] }]⟩]

/-- Not every animal is told by the name it is registered under. -/
theorem registeredName_tells_iff_menagerie : ∃ p e d t u, Plan.build menagerie "Animal" = .ok p ∧
    e ∈ p.entities ∧ e.head.discriminator = some d ∧ t ∈ d.candidates ∧ u ∈ d.candidates ∧
    t.name = "zoo.Dog" ∧ u.name = "farm.Dog" ∧ t.registeredName = u.registeredName ∧
    ¬ ∀ t ∈ d.candidates, ∀ row : Row, row.getOrNull d.label = .text t.registeredName →
      typeOf e.head row = t := by
  obtain ⟨p, built, found⟩ := ok_of_map (x := Plan.build menagerie "Animal")
    (f := fun p => p.entities.head?.bind fun e => e.head.discriminator.map fun d =>
      d.candidates.map fun t => (t.name, t.registeredName))
    (b := some [("Animal", "Animal"), ("zoo.Dog", "Dog"), ("farm.Dog", "Dog")]) (by decide +kernel)
  obtain ⟨e, first, found⟩ := Option.bind_eq_some_iff.mp found
  obtain ⟨d, hd, listed⟩ := Option.map_eq_some_iff.mp found
  have he : e ∈ p.entities := List.mem_of_head? first
  have candidate : ∀ pair ∈ [("Animal", "Animal"), ("zoo.Dog", "Dog"), ("farm.Dog", "Dog")],
      ∃ t ∈ d.candidates, (t.name, t.registeredName) = pair :=
    fun pair mem => List.mem_map.mp (listed ▸ mem)
  obtain ⟨t, ht, zoo⟩ := candidate ("zoo.Dog", "Dog") (by decide)
  obtain ⟨u, hu, farm⟩ := candidate ("farm.Dog", "Dog") (by decide)
  obtain ⟨zoo, dog⟩ := Prod.mk.inj zoo
  obtain ⟨farm, dog'⟩ := Prod.mk.inj farm
  obtain ⟨-, -, iff⟩ := Plan.registeredName_tells_iff built he hd
  have other : t ≠ u := fun same => absurd (zoo.symm.trans (same ▸ farm)) (by decide)
  have same := dog.trans dog'.symm
  exact ⟨p, e, d, t, u, built, he, hd, ht, hu, zoo, farm, same,
    fun told => other (iff.mp told t ht u hu same)⟩

/-! ## Integers -/

/-- An integer in decimal digits. -/
def integerText (n : Int) : String :=
  String.ofList (signed n)

/-- An integer in decimal digits, in quotes. -/
def quotedText (n : Int) : String :=
  String.ofList ('\x22' :: signed n ++ ['\x22'])

/-- Integers are stored under their digits, whatever their width. -/
theorem storedName?_of_integer {v : Value} {n : Int} (h : v.integer? = some n) :
    storedName? v = some (integerText n) := by
  cases v with
  | tinyInt m | smallInt m | int m | bigInt m =>
    cases h
    rfl
  | _ => cases h

/-- Neither digits nor a minus are escaped. -/
theorem escape_of_mem_signed {n : Int} {c : Char} (h : c ∈ signed n) : Json.escape c = [c] := by
  have range : 45 ≤ c.toNat ∧ c.toNat ≤ 57 := by
    have among : c ∈ decimal n.natAbs → 45 ≤ c.toNat ∧ c.toNat ≤ 57 := fun mem => by
      have digit := Nat.isDigit_of_mem_toDigits (by decide) (by decide) mem
      obtain ⟨low, high⟩ := Char.isDigit_iff_toNat.mp digit
      exact ⟨Nat.le_trans (by decide) low, high⟩
    unfold signed at h
    split at h
    · rcases List.mem_cons.mp h with rfl | mem
      · decide
      · exact among mem
    · exact among h
  have apart : ∀ other : Char, ¬(45 ≤ other.toNat ∧ other.toNat ≤ 57) → c ≠ other := by
    rintro _ outside rfl
    exact outside range
  unfold Json.escape
  rw [if_neg (apart _ (by decide)), if_neg (apart _ (by decide)), if_neg (apart _ (by decide)),
    if_neg (apart _ (by decide)), if_neg (apart _ (by decide)), if_neg (apart _ (by decide)),
    if_neg (apart _ (by decide)), if_neg (by omega)]

/-- A decimal is stored under its digits in quotes. -/
theorem storedName?_decimal (n : Int) :
    storedName? (.decimal (integerText n)) = some (quotedText n) := by
  have digits : (signed n).flatMap Json.escape = signed n := by
    rw [List.flatMap_congr fun c => escape_of_mem_signed, List.flatMap_singleton']
  show some (String.ofList (Json.quote (integerText n))) = _
  rw [Json.quote, integerText, String.toList_ofList, digits]
  rfl

/-! ## Stored integers -/

/-- The values that a driver may hand over for an integer: an integer of a width that holds it, or its
digits as a decimal or a text. -/
inductive Value.Delivers (n : Int) : Value → Prop where
  | integer {v : Value} (holds : v.integer? = some n) : Delivers n v
  | decimal : Delivers n (.decimal (integerText n))
  | text : Delivers n (.text (integerText n))

/-- Rows that hold one integer tell one type, however it is handed over. -/
def Plan.Entity.TellsAlike (e : Entity) (d : DiscriminatorPlan) (n : Int) : Prop :=
  ∀ row row' : Row, (row.getOrNull d.label).Delivers n → (row'.getOrNull d.label).Delivers n →
    typeOf e.head row = typeOf e.head row'

/-- **A stored integer tells one type unless it comes as a decimal.** Of every discriminated entity of
a plan, rows that hold an integer, of any width or as a text, tell the candidate that is registered
under its digits, where there is one. A decimal with the same digits tells the candidate that is
registered under them in quotes, or the declared type. So it makes no difference how an integer is
handed over exactly if these two are the same; where no candidate is registered under the quoted digits,
that is if only the declared type can be told by them. -/
theorem Plan.integer_tells_iff {s : Schema} {name : String} {p : Plan}
    (built : Plan.build s name = .ok p) {e : Entity} (he : e ∈ p.entities) {d : DiscriminatorPlan}
    (hd : e.head.discriminator = some d) (n : Int) :
    (∀ row : Row, (row.getOrNull d.label).integer? = some n ∨
        row.getOrNull d.label = .text (integerText n) →
      typeOf e.head row = (d.candidate? (integerText n)).getD d.fallback ∧
      ∀ t ∈ d.candidates, t.registeredName = integerText n →
        d.candidate? (integerText n) = some (typeOf e.head row)) ∧
    (∀ row : Row, row.getOrNull d.label = .decimal (integerText n) →
      typeOf e.head row = (d.candidate? (quotedText n)).getD d.fallback) ∧
    (e.TellsAlike d n ↔ (d.candidate? (quotedText n)).getD d.fallback =
      (d.candidate? (integerText n)).getD d.fallback) ∧
    ((∀ t ∈ d.candidates, t.registeredName ≠ quotedText n) →
      (e.TellsAlike d n ↔ ∀ t, d.candidate? (integerText n) = some t → t = d.fallback)) := by
  obtain ⟨root, -, wired⟩ := wired_of_build built
  have discriminated := (wired.walked e he).discriminated hd
  have plain : ∀ row : Row, (row.getOrNull d.label).integer? = some n ∨
      row.getOrNull d.label = .text (integerText n) →
      storedName? (row.getOrNull d.label) = some (integerText n) := by
    rintro row (holds | text)
    · exact storedName?_of_integer holds
    · rw [text]
      rfl
  have direct := fun row given => discriminated.typeOf_of_name (plain row given)
  have quoted : ∀ row : Row, row.getOrNull d.label = .decimal (integerText n) →
      typeOf e.head row = (d.candidate? (quotedText n)).getD d.fallback := fun row stored =>
    discriminated.typeOf_of_name (by rw [stored, storedName?_decimal])
  have alike : e.TellsAlike d n ↔ (d.candidate? (quotedText n)).getD d.fallback =
      (d.candidate? (integerText n)).getD d.fallback := by
    constructor
    · intro alike
      obtain ⟨row, stored⟩ := exists_row d.label (.decimal (integerText n))
      obtain ⟨row', stored'⟩ := exists_row d.label (.text (integerText n))
      rw [← quoted row stored, ← direct row' (.inr stored')]
      exact alike row row' (stored ▸ .decimal) (stored' ▸ .text)
    · intro same
      have each : ∀ row : Row, (row.getOrNull d.label).Delivers n →
          typeOf e.head row = (d.candidate? (integerText n)).getD d.fallback := by
        intro row delivers
        generalize stored : row.getOrNull d.label = v at delivers
        cases delivers with
        | integer holds => exact direct row (.inl (stored ▸ holds))
        | decimal => exact (quoted row stored).trans same
        | text => exact direct row (.inr stored)
      exact fun row row' here there => (each row here).trans (each row' there).symm
  refine ⟨fun row given => ⟨direct row given, fun t ht registered => ?_⟩, quoted, alike,
    fun unquoted => ?_⟩
  · rw [← registered]
    exact discriminated.candidate?_typeOf ht (registered ▸ plain row given)
  · have none := candidate?_eq_none_iff.mpr unquoted
    rw [alike, none, Option.getD_none]
    cases d.candidate? (integerText n) with
    | none => exact iff_of_true rfl nofun
    | some t => exact ⟨fun same u found => (Option.some.inj found) ▸ same.symm,
        fun only => (only t rfl).symm⟩

/-- The rooms of a hotel; a room of kind 2 is a suite. -/
def hotel : Schema where
  sources := [⟨.runtime, [
    { name := "Room", table := some ⟨none, "room"⟩, discriminator := some "kind",
      subclasses := ["Suite"],
      fields := [{ name := "id", type := .value .int, attrs := { id := some true } }] },
    { name := "Suite", superclass := some "Room", discriminatorValue := some "2",
      fields := [{ name := "beds", type := .value .int }] }]⟩]

/-- A suite is told by the integer 2 and by its text, and not by the decimal. -/
theorem integer_tells_iff_hotel : ∃ p e d, Plan.build hotel "Room" = .ok p ∧ e ∈ p.entities ∧
    e.head.discriminator = some d ∧ ¬ e.TellsAlike d 2 ∧
    (∀ row : Row, row.getOrNull d.label = .int 2 → (typeOf e.head row).name = "Suite") ∧
    (∀ row : Row, row.getOrNull d.label = .text "2" → (typeOf e.head row).name = "Suite") ∧
    ∀ row : Row, row.getOrNull d.label = .decimal "2" → (typeOf e.head row).name = "Room" := by
  obtain ⟨p, built, found⟩ := ok_of_map (x := Plan.build hotel "Room")
    (f := fun p => p.entities.head?.bind fun e => e.head.discriminator.map fun d =>
      (d.fallback.name, (d.candidate? (integerText 2)).map (·.name),
        d.candidates.map (·.registeredName)))
    (b := some ("Room", some "Suite", ["Room", "2"])) (by decide +kernel)
  obtain ⟨e, first, found⟩ := Option.bind_eq_some_iff.mp found
  obtain ⟨d, hd, shown⟩ := Option.map_eq_some_iff.mp found
  simp only [Prod.mk.injEq] at shown
  obtain ⟨fallback, suite, names⟩ := shown
  obtain ⟨t, told, isSuite⟩ := Option.map_eq_some_iff.mp suite
  have he : e ∈ p.entities := List.mem_of_head? first
  have digits : integerText 2 = "2" := by decide +kernel
  have unquoted : ∀ t ∈ d.candidates, t.registeredName ≠ quotedText 2 := by
    have apart : ∀ registered ∈ ["Room", "2"], registered ≠ quotedText 2 := by decide +kernel
    exact fun t ht => apart _ (names ▸ List.mem_map_of_mem ht)
  obtain ⟨direct, quoted, -, alike⟩ := Plan.integer_tells_iff built he hd 2
  have none := candidate?_eq_none_iff.mpr unquoted
  refine ⟨p, e, d, built, he, hd, fun all => ?_, fun row stored => ?_, fun row stored => ?_,
    fun row stored => ?_⟩
  · have same := (alike unquoted).mp all t told
    rw [← same, isSuite] at fallback
    exact absurd fallback (by decide)
  · rw [(direct row (.inl (by rw [stored]; rfl))).1, told, Option.getD_some, isSuite]
  · rw [(direct row (.inr (digits ▸ stored))).1, told, Option.getD_some, isSuite]
  · rw [quoted row (digits ▸ stored), none, Option.getD_none, fallback]

end Orm
