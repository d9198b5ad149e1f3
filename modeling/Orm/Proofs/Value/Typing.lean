import Orm.Proofs.Plan.Derivation

/-!
# `Proofs.Value.Typing` — what conversions give

Drivers hand back what they please, in one of eighteen kinds of values, and a field is declared with one
of sixteen types. Whatever the value was, a conversion that succeeds gives NULL or a value of the kind
that belongs to the type; so a field takes only what it is declared for.

## Contents
- **Kinds.** `Value.type?`, `Value.IsOf`.
- **Conversions.** One lemma for each, `Value.type?_of_coerce`, and `Value.isOf_of_coerce`.
- **Fields.** `FieldModel.Takes`, `takes_of_coerce`, `isNull_of_coerce`.
-/

namespace Orm

open Schema

/-! ## Kinds -/

namespace Value

/-- The type whose values are of the kind of a value; NULL and arrays are of no single type. -/
def type? : Value → Option ScalarType
  | .null => none
  | .bool _ => some .bool
  | .tinyInt _ => some .tinyInt
  | .smallInt _ => some .smallInt
  | .int _ => some .int
  | .bigInt _ => some .bigInt
  | .real _ => some .real
  | .double _ => some .double
  | .decimal _ => some .decimal
  | .text _ => some .text
  | .bytes _ => some .bytes
  | .date _ => some .date
  | .time _ => some .time
  | .timestamp _ => some .timestamp
  | .timestampTz _ => some .timestampTz
  | .uuid _ => some .uuid
  | .json _ => some .json
  | .array _ => none

/-- NULL, or a value of a type. -/
def IsOf (type : ScalarType) (value : Value) : Prop :=
  value = .null ∨ value.type? = some type

/-! ## Conversions -/

variable {value result : Value} {type : ScalarType}

theorem type?_of_coerceBool (h : coerceBool value = .ok result) : result.type? = some .bool := by
  unfold coerceBool at h
  split at h
  · cases h
    rfl
  · dsimp only at h
    split at h
    · cases h
      rfl
    split at h
    · cases h
      rfl
    · cases h
  · split at h
    · cases h
      rfl
    · cases h
      rfl
    · cases h

/-- An integer that fits an integral type is one of its values. -/
theorem type?_of_fit? (integral : type.isIntegral = true) {n : Int} (h : type.fit? n = some result) :
    result.type? = some type := by
  cases type with
  | tinyInt | smallInt | int | bigInt =>
    obtain ⟨-, same⟩ := Option.ite_none_right_eq_some.mp h
    cases same
    rfl
  | _ => cases integral

theorem type?_of_coerceIntegral (integral : type.isIntegral = true)
    (h : coerceIntegral type value = .ok result) : result.type? = some type := by
  obtain ⟨n, -, h⟩ := ok_bind.mp h
  split at h
  next fitted fits =>
    cases h
    exact type?_of_fit? integral fits
  next => cases h

theorem type?_of_coerceDecimal (h : coerceDecimal value = .ok result) :
    result.type? = some .decimal := by
  unfold coerceDecimal at h
  split at h
  · cases h
    rfl
  · split at h
    · cases h
      rfl
    · cases h
  · cases h
    rfl
  · cases h
    rfl
  · split at h
    · cases h
      rfl
    · cases h

theorem type?_of_coerceText (h : coerceText value = .ok result) : result.type? = some .text := by
  unfold coerceText at h
  split at h <;> cases h <;> rfl

theorem type?_of_coerceBytes (h : coerceBytes value = .ok result) : result.type? = some .bytes := by
  unfold coerceBytes at h
  split at h <;> cases h <;> rfl

theorem type?_of_coerceDate (h : coerceDate value = .ok result) : result.type? = some .date := by
  unfold coerceDate at h
  split at h
  case h_4 =>
    split at h <;> cases h
    rfl
  all_goals cases h <;> rfl

theorem type?_of_coerceTime (h : coerceTime value = .ok result) : result.type? = some .time := by
  unfold coerceTime at h
  split at h
  case h_4 =>
    split at h <;> cases h
    rfl
  all_goals cases h <;> rfl

theorem type?_of_coerceUuid (h : coerceUuid value = .ok result) : result.type? = some .uuid := by
  unfold coerceUuid at h
  split at h
  case h_2 =>
    split at h <;> cases h
    rfl
  case h_3 =>
    split at h <;> cases h
    rfl
  all_goals cases h <;> rfl

theorem type?_of_coerceJson (h : coerceJson value = .ok result) : result.type? = some .json := by
  unfold coerceJson at h
  split at h
  case h_2 =>
    split at h <;> cases h
    rfl
  all_goals
    cases h
    rfl

/-- A value that is not NULL becomes one of the type. -/
theorem type?_of_coerce (h : coerce type value = .ok result) (present : value.isNull = false) :
    result.type? = some type := by
  unfold coerce at h
  rw [present, if_neg Bool.false_ne_true] at h
  cases type with
  | bool => exact type?_of_coerceBool h
  | tinyInt | smallInt | int | bigInt => exact type?_of_coerceIntegral rfl h
  | real | double | timestamp | timestampTz =>
    obtain ⟨x, -, rfl⟩ := map_eq_ok.mp h
    rfl
  | decimal => exact type?_of_coerceDecimal h
  | text => exact type?_of_coerceText h
  | bytes => exact type?_of_coerceBytes h
  | date => exact type?_of_coerceDate h
  | time => exact type?_of_coerceTime h
  | uuid => exact type?_of_coerceUuid h
  | json => exact type?_of_coerceJson h

/-- **A value that was made to fit a type is NULL or of that type.** -/
theorem isOf_of_coerce (h : coerce type value = .ok result) : result.IsOf type := by
  cases null : value.isNull with
  | true =>
    unfold coerce at h
    rw [null, if_pos rfl] at h
    cases h
    exact .inl rfl
  | false => exact .inr (type?_of_coerce h null)

theorem isNull_of_type? (h : value.type? = some type) : value.isNull = false := by
  cases value with
  | null => cases h
  | _ => rfl

/-- The items of an array are made to fit one by one. -/
theorem isOf_of_coerceItems {items : List Value} (h : coerceItems type items = .ok result) :
    ∃ fitted, result = .array fitted ∧ ∀ item ∈ fitted, item.IsOf type := by
  obtain ⟨fitted, run, rfl⟩ := map_eq_ok.mp h
  refine ⟨fitted, rfl, fun item mem => ?_⟩
  obtain ⟨source, -, made⟩ := mem_of_mapM run mem
  exact isOf_of_coerce made

/-- What is taken for a constant is the text of one. -/
theorem exists_of_constant {constants : List String} (h : value.constant constants = .ok result) :
    ∃ c ∈ constants, result = .text c := by
  unfold constant at h
  split at h
  next name =>
    split at h
    next mem =>
      cases h
      exact ⟨name, List.contains_iff_mem.mp mem, rfl⟩
    next => cases h
  next => cases h

end Value

/-! ## Fields -/

namespace Schema.FieldModel

/-- The values that a field is declared for. -/
inductive Takes (s : Schema) (f : FieldModel) : Value → Prop where
  | null (single : f.isSingle = true) : Takes s f .null
  | value {type : ScalarType} {v : Value} (cls : f.cls = .scalar type) (of : v.type? = some type) :
      Takes s f v
  | items {type : ScalarType} {items : List Value} (cls : f.cls = .scalar type)
      (many : f.cardinality.isMany = true) (of : ∀ item ∈ items, item.IsOf type) :
      Takes s f (.array items)
  | constant {name c : String} {t : TypeModel} (cls : f.cls = .enumeration name)
      (describes : s.describe name = .ok t) (mem : c ∈ t.constants) : Takes s f (.text c)

variable {s : Schema} {f : FieldModel} {constants : List String} {v w : Value}

theorem takes_of_isOf {type : ScalarType} (cls : f.cls = .scalar type) (single : f.isSingle = true)
    (of : v.IsOf type) : f.Takes s v := by
  rcases of with rfl | of
  · exact .null single
  · exact .value cls of

/-- **What is read of a row is what the field is declared for.** -/
theorem takes_of_coerce (single : f.isSingle = true) (known : s.constantsOf f = .ok constants)
    (h : f.coerce constants v = .ok w) : f.Takes s w := by
  unfold FieldModel.coerce at h
  split at h
  · cases h
    exact .null single
  split at h
  next type cls =>
    split at h
    · split at h
      next many =>
        obtain ⟨fitted, rfl, of⟩ := Value.isOf_of_coerceItems h
        exact .items cls many of
      next => exact takes_of_isOf cls single (Value.isOf_of_coerce h)
    · exact takes_of_isOf cls single (Value.isOf_of_coerce h)
  next name cls =>
    unfold Schema.constantsOf at known
    rw [cls] at known
    obtain ⟨t, described, rfl⟩ := map_eq_ok.mp known
    obtain ⟨c, mem, rfl⟩ := Value.exists_of_constant h
    exact .constant cls described mem
  next not_scalar not_enumeration =>
    unfold isSingle isRelation isEmbedded at single
    cases cls : f.cls with
    | scalar type => exact absurd cls (not_scalar type)
    | enumeration name => exact absurd cls (not_enumeration name)
    | relation name | embedded name =>
      rw [cls] at single
      cases single

/-- **What is read of a row is NULL just if the row has NULL there.** -/
theorem isNull_of_coerce (h : f.coerce constants v = .ok w) : w.isNull = v.isNull := by
  unfold FieldModel.coerce at h
  cases null : v.isNull with
  | true =>
    rw [null, if_pos rfl] at h
    cases h
    rfl
  | false =>
    rw [null, if_neg Bool.false_ne_true] at h
    split at h
    next type _ =>
      split at h
      · split at h
        next =>
          obtain ⟨fitted, rfl, -⟩ := Value.isOf_of_coerceItems h
          rfl
        next => exact Value.isNull_of_type? (Value.type?_of_coerce h null)
      · exact Value.isNull_of_type? (Value.type?_of_coerce h null)
    next =>
      obtain ⟨c, -, rfl⟩ := Value.exists_of_constant h
      rfl
    next =>
      cases h
      exact null

end Schema.FieldModel

end Orm
