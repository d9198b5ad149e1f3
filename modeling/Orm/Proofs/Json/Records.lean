import Mathlib.Data.List.Forall2
import Mathlib.Data.List.Nodup
import Orm.Json.Record
import Orm.Proofs.Json.Printing

/-!
# `Proofs.Json.Records` — records are read in any order of their members

A record is written with its members in one order and read by their names, so the order is of no
account. `Json.Rearranged` says that two values differ in nothing else, at any depth, and
`Document.Restores` that a reader takes a value and all its rearrangements for one and the same
thing. Readers that are put together from restoring ones are restoring.

## Contents
- **Order.** `Json.Rearranged` with its inversions; `Json.rearranged_ofMembers`: the order in which
  the members of a new object are given is one of them.
- **Simple values.** `Document.Restores` for texts, truth values, lists, choices and `null`.
- **Records.** `Document.Fields.Hold`, `Document.record?_ofMembers`: a record written with all its
  fields has them.
-/

namespace Orm

/-! ## Order -/

/-- Items of one of two related lists have partners in the other. -/
theorem exists_of_mem_left {α β : Type} {r : α → β → Prop} {l : List α} {l' : List β}
    (h : List.Forall₂ r l l') {a : α} (mem : a ∈ l) : ∃ b ∈ l', r a b := by
  induction h with
  | nil => cases mem
  | cons first _ ih =>
    rcases List.mem_cons.mp mem with rfl | later
    · exact ⟨_, List.mem_cons_self, first⟩
    · obtain ⟨b, listed, related⟩ := ih later
      exact ⟨b, List.mem_cons_of_mem _ listed, related⟩

theorem exists_of_mem_right {α β : Type} {r : α → β → Prop} {l : List α} {l' : List β}
    (h : List.Forall₂ r l l') {b : β} (mem : b ∈ l') : ∃ a ∈ l, r a b :=
  exists_of_mem_left (r := flip r) h.flip mem

namespace Json

/-- Two members have one name and related values. -/
inductive OnValues (r : Json → Json → Prop) : String × Json → String × Json → Prop
  | of (name : String) {value value' : Json} (h : r value value') :
      OnValues r (name, value) (name, value')

/-- The second value is the first with the members of its objects in some order, at any depth. -/
inductive Rearranged : Json → Json → Prop
  | null : Rearranged .null .null
  | bool (b : Bool) : Rearranged (.bool b) (.bool b)
  | int (n : Int) : Rearranged (.int n) (.int n)
  | float (x : Number.Binary64) : Rearranged (.float x) (.float x)
  | string (s : String) : Rearranged (.string s) (.string s)
  | array {items items' : List Json} (h : List.Forall₂ Rearranged items items') :
      Rearranged (.array items) (.array items')
  | object {members order members' : List (String × Json)} (perm : members.Perm order)
      (h : List.Forall₂ (OnValues Rearranged) order members') :
      Rearranged (.object members) (.object members')

/-- Related members have the same names in the same order. -/
theorem map_fst_of_onValues {r : Json → Json → Prop} {members members' : List (String × Json)}
    (h : List.Forall₂ (OnValues r) members members') :
    members.map Prod.fst = members'.map Prod.fst := by
  induction h with
  | nil => rfl
  | cons first _ ih =>
    cases first
    rw [List.map_cons, List.map_cons, ih]

/-- A rearrangement of an object has the members of the object, with their values rearranged. -/
theorem Rearranged.members {members : List (String × Json)} {j : Json}
    (h : (Json.object members).Rearranged j) :
    ∃ members', j = .object members' ∧ (members.map Prod.fst).Perm (members'.map Prod.fst) ∧
      (∀ name value, (name, value) ∈ members →
        ∃ value', value.Rearranged value' ∧ (name, value') ∈ members') ∧
      ∀ name value', (name, value') ∈ members' →
        ∃ value, value.Rearranged value' ∧ (name, value) ∈ members := by
  cases h with
  | object perm same =>
    refine ⟨_, rfl, map_fst_of_onValues same ▸ perm.map Prod.fst, ?_, ?_⟩
    · intro name value mem
      obtain ⟨_, listed, ⟨_, related⟩⟩ := exists_of_mem_left same (perm.mem_iff.mp mem)
      exact ⟨_, related, listed⟩
    · intro name value' mem
      obtain ⟨_, listed, ⟨_, related⟩⟩ := exists_of_mem_right same mem
      exact ⟨_, related, perm.mem_iff.mpr listed⟩

/-- A rearrangement of an object with one member has one member. -/
theorem Rearranged.single {name : String} {value j : Json}
    (h : (Json.object [(name, value)]).Rearranged j) :
    ∃ value', j = .object [(name, value')] ∧ value.Rearranged value' := by
  cases h with
  | object perm same =>
    obtain rfl := List.singleton_perm.mp perm
    cases same with
    | cons first none =>
      cases first with
      | of _ related =>
        cases none
        exact ⟨_, rfl, related⟩

attribute [simp] FloatFree.null FloatFree.bool FloatFree.int FloatFree.string

/-- A rearrangement has no float where there was none. -/
theorem FloatFree.rearranged {j j' : Json} (free : j.FloatFree) (h : j.Rearranged j') :
    j'.FloatFree := by
  induction free generalizing j' with
  | null => cases h; exact .null
  | bool b => cases h; exact .bool b
  | int n => cases h; exact .int n
  | string s => cases h; exact .string s
  | array _ ih =>
    cases h with
    | array same =>
      refine .array fun item' mem => ?_
      obtain ⟨item, listed, related⟩ := exists_of_mem_right same mem
      exact ih item listed related
  | object _ ih =>
    obtain ⟨members', rfl, -, -, back⟩ := h.members
    refine .object fun m mem => ?_
    obtain ⟨value, same, listed⟩ := back m.1 m.2 mem
    exact ih (m.1, value) listed same

/-- A value without floats is a rearrangement of itself. -/
theorem FloatFree.rearranged_self {j : Json} (free : j.FloatFree) : j.Rearranged j := by
  induction free with
  | null => exact .null
  | bool b => exact .bool b
  | int n => exact .int n
  | string s => exact .string s
  | array _ ih => exact .array (List.forall₂_same.mpr ih)
  | object _ ih =>
    exact .object (List.Perm.refl _) (List.forall₂_same.mpr fun m mem => .of m.1 (ih m mem))

/-- A new member is one more, wherever it is put. -/
theorem perm_insert {name : String} {value : Json} {members : List (String × Json)}
    (new : name ∉ members.map Prod.fst) :
    (insert name value members).Perm ((name, value) :: members) := by
  induction members with
  | nil => exact List.Perm.refl _
  | cons m rest ih =>
    rw [List.map_cons, List.mem_cons, not_or] at new
    rw [insert, if_neg new.1]
    split
    · exact List.Perm.refl _
    · exact ((ih new.2).cons m).trans (List.Perm.swap _ _ _)

/-- An object made of members with distinct names has these members. -/
theorem perm_ofMembers {members : List (String × Json)} (distinct : (members.map Prod.fst).Nodup) :
    ∃ sorted, ofMembers members = .object sorted ∧ members.Perm sorted := by
  refine ⟨_, rfl, ?_⟩
  suffices folded : ∀ acc : List (String × Json), ((members ++ acc).map Prod.fst).Nodup →
      (members ++ acc).Perm (members.foldl (fun acc m => insert m.1 m.2 acc) acc) by
    simpa using folded [] (by simpa using distinct)
  induction members with
  | nil => exact fun acc _ => List.Perm.refl acc
  | cons m rest ih =>
    intro acc nodup
    have distinct_rest : (rest.map Prod.fst).Nodup := (List.nodup_cons.mp distinct).2
    have new : m.1 ∉ acc.map Prod.fst := by
      intro mem
      simp only [List.cons_append, List.map_cons, List.map_append, List.nodup_cons] at nodup
      exact nodup.1 (List.mem_append_right _ mem)
    have step : (m :: rest ++ acc).Perm (rest ++ insert m.1 m.2 acc) :=
      List.perm_middle.symm.trans ((perm_insert new).symm.append_left rest)
    exact step.trans (ih distinct_rest _ (((step.map Prod.fst).nodup_iff).mp nodup))

/-- An object made of members is one in the order in which they were given. -/
theorem rearranged_ofMembers {members : List (String × Json)}
    (distinct : (members.map Prod.fst).Nodup) {members' : List (String × Json)}
    (h : List.Forall₂ (OnValues Rearranged) members members') :
    (ofMembers members).Rearranged (.object members') := by
  obtain ⟨sorted, made, perm⟩ := perm_ofMembers distinct
  rw [made]
  exact .object perm.symm h

/-- An object made of values without floats has none. -/
theorem FloatFree.ofMembers {members : List (String × Json)}
    (distinct : (members.map Prod.fst).Nodup) (h : ∀ m ∈ members, m.2.FloatFree) :
    (ofMembers members).FloatFree := by
  obtain ⟨sorted, made, perm⟩ := perm_ofMembers distinct
  rw [made]
  exact .object fun m mem => h m (perm.mem_iff.mpr mem)

theorem FloatFree.list {α : Type} {write : α → Json} {items : List α}
    (h : ∀ a, (write a).FloatFree) : (Json.array (items.map write)).FloatFree := by
  refine .array fun item mem => ?_
  obtain ⟨a, -, rfl⟩ := List.mem_map.mp mem
  exact h a

theorem FloatFree.nullable {α : Type} {write : α → Json} {x : Option α}
    (h : ∀ a, (write a).FloatFree) : ((x.map write).getD .null).FloatFree := by
  cases x with
  | none => exact .null
  | some a => exact h a

end Json

/-! ## Simple values -/

namespace Document

open Json

theorem ofItems_eq_map (items : List Json) : ofItems items = items.map ofJson := by
  induction items with
  | nil => rfl
  | cons item rest ih => rw [ofItems, ih, List.map_cons]

theorem ofMembers_eq_map (members : List (String × Json)) :
    Document.ofMembers members = members.map fun m => (some m.1, ofJson m.2) := by
  induction members with
  | nil => rfl
  | cons m rest ih => rw [Document.ofMembers, ih, List.map_cons, ofMember]

section

variable {α : Type} {read : Document → Option α} {j : Json} {a : α}

/-- A value and all its rearrangements are read as `a`. -/
def Restores (read : Document → Option α) (j : Json) (a : α) : Prop :=
  ∀ j', j.Rearranged j' → read (ofJson j') = some a

theorem restores_text (s : String) : Restores text? (.string s) s := by
  rintro _ ⟨⟩
  rfl

theorem restores_bool (b : Bool) : Restores bool? (.bool b) b := by
  rintro _ ⟨⟩
  rfl

theorem restores_character (c : Char) :
    Restores character? (.string (String.ofList [c])) c := by
  rintro _ ⟨⟩
  simp [character?, ofJson, text?]

theorem restores_natural {n limit : Nat} (gathered : n ≤ maxGathered) (h : n ≤ limit) :
    Restores (natural? limit) (.int n) n := by
  rintro _ ⟨⟩
  obtain ⟨text, spelled, value⟩ := natural?_ofInt gathered h
  rw [ofJson, spelled]
  exact value

/-- Readers one after the other. -/
theorem read_then {β : Type} {x : Option α} {next : α → Option β} {result : Option β}
    (h : x = some a) (later : next a = result) : x >>= next = result := by
  rw [h]
  exact later

/-- A choice is read by its name. -/
theorem restores_choice {choices : List (String × α)} {name : String}
    (found : choices.lookup name = some a) : Restores (choice? choices) (.string name) a := by
  rintro _ ⟨⟩
  exact found

/-- What may be absent is written as `null` when it is. -/
theorem restores_nullable {write : α → Json} {x : Option α} (null : read .null = none)
    (h : ∀ a ∈ x, Restores read (write a) a) :
    Restores (nullable? read) ((x.map write).getD .null) x := by
  intro j' same
  cases x with
  | none =>
    obtain ⟨⟩ := same
    rfl
  | some a =>
    have found : read (ofJson j') = some a := h a rfl j' same
    -- What is read as something is not `null`.
    revert found
    cases ofJson j' <;> simp_all [nullable?]

/-- A list is read item by item. -/
theorem restores_list {write : α → Json} {items : List α}
    (h : ∀ a ∈ items, Restores read (write a) a) :
    Restores (list? read) (.array (items.map write)) items := by
  intro j' rearranged
  cases rearranged with
  | @array _ items' same =>
    rw [ofJson, ofItems_eq_map, list?]
    induction items generalizing items' with
    | nil =>
      cases same
      rfl
    | cons a rest ih =>
      cases same with
      | cons first others =>
        have found := h a List.mem_cons_self _ first
        have run := ih (fun a mem => h a (List.mem_cons_of_mem _ mem)) others
        rw [List.map_cons, List.mapM_cons, found, run]
        rfl

end

/-! ## Records -/

/-- Among members with distinct names, each is found under its name. -/
theorem lookup_of_mem {β : Type} {members : List (String × β)} {name : String} {value : β}
    (distinct : (members.map Prod.fst).Nodup) (mem : (name, value) ∈ members) :
    members.lookup name = some value := by
  induction members with
  | nil => cases mem
  | cons m rest ih =>
    rw [List.map_cons, List.nodup_cons] at distinct
    rcases List.mem_cons.mp mem with rfl | later
    · rw [List.lookup_cons, beq_self_eq_true]
    · have other : name ≠ m.1 := by
        rintro rfl
        exact distinct.1 (List.mem_map.mpr ⟨_, later, rfl⟩)
      rw [List.lookup_cons, beq_eq_false_iff_ne.mpr other]
      exact ih distinct.2 later

/-- Of an object whose members have distinct names, all of them known, every member is taken. -/
theorem knownMembers_ofMembers {names : List String} {members : List (String × Json)}
    (distinct : (members.map Prod.fst).Nodup)
    (known : ∀ name ∈ members.map Prod.fst, name ∈ names) :
    knownMembers names (Document.ofMembers members) =
      some (members.map fun m => (m.1, ofJson m.2)) := by
  rw [ofMembers_eq_map]
  induction members with
  | nil => rfl
  | cons m rest ih =>
    rw [List.map_cons, List.nodup_cons] at distinct
    have others := ih distinct.2 fun name mem => known name (List.mem_cons_of_mem _ mem)
    have absent : List.lookup m.1 (rest.map fun m => (m.1, ofJson m.2)) = none := by
      rw [List.lookup_eq_none_iff]
      simp only [List.mem_map, bne_iff_ne]
      rintro _ ⟨other, mem, rfl⟩ same
      exact distinct.1 (List.mem_map.mpr ⟨other, mem, same.symm⟩)
    simp [knownMembers, others, absent, known m.1 List.mem_cons_self]

/-- The fields of a record are those of the members, up to the order inside them. -/
def Fields.Hold (fields : Fields) (members : List (String × Json)) : Prop :=
  ∀ name value, (name, value) ∈ members →
    ∃ value', value.Rearranged value' ∧ List.lookup name fields = some (ofJson value')

/-- A record that is written with all its fields has them, in whatever order they stand. -/
theorem record?_ofMembers (names : List String) {members : List (String × Json)}
    (same : members.map Prod.fst = names) (distinct : names.Nodup) {j : Json}
    (h : (Json.ofMembers members).Rearranged j) :
    ∃ fields, (ofJson j).record? names = some fields ∧ fields.Hold members := by
  obtain ⟨sorted, made, perm⟩ := perm_ofMembers (same ▸ distinct)
  rw [made] at h
  obtain ⟨members', rfl, samenames, forth, -⟩ := h.members
  have renamed : names.Perm (members'.map Prod.fst) :=
    same ▸ (perm.map Prod.fst).trans samenames
  have distinct' : (members'.map Prod.fst).Nodup := renamed.nodup_iff.mp distinct
  refine ⟨members'.map fun m => (m.1, ofJson m.2), ?_, ?_⟩
  · rw [ofJson, record?]
    exact knownMembers_ofMembers distinct' fun name mem => renamed.mem_iff.mpr mem
  · intro name value mem
    obtain ⟨value', related, listed⟩ := forth name value (perm.mem_iff.mp mem)
    refine ⟨value', related, lookup_of_mem ?_ (List.mem_map.mpr ⟨_, listed, rfl⟩)⟩
    rwa [List.map_map]

namespace Fields.Hold

variable {fields : Fields} {members : List (String × Json)} {α : Type}
  {read : Document → Option α} {value : Json} {a : α}

theorem required (h : fields.Hold members) (name : String) (restores : Restores read value a)
    (mem : (name, value) ∈ members) : fields.required name read = some a := by
  obtain ⟨value', related, found⟩ := h name value mem
  rw [Fields.required, found, Option.bind_some, restores value' related]

/-- What to fall back on is not asked for: the field is there. -/
theorem orElse (h : fields.Hold members) (name : String) (default : α)
    (restores : Restores read value a) (mem : (name, value) ∈ members) :
    fields.orElse name default read = some a := by
  obtain ⟨value', related, found⟩ := h name value mem
  rw [Fields.orElse, found]
  exact restores value' related

theorem optional {x : Option α} (h : fields.Hold members) (name : String)
    (restores : Restores (nullable? read) value x) (mem : (name, value) ∈ members) :
    fields.optional name read = some x :=
  h.orElse name none restores mem

end Fields.Hold

end Document

end Orm
