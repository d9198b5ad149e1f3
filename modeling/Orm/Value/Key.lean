import Orm.Value.Coercion

/-!
# `Orm.Value.Key` — the identity of a row's values

Drivers deliver one key in integers of different widths, decimals or floats. Key values are
normalised, so that all of them name one instance: integers of every width, whole decimals and whole
floats below `2 ^ 53` become the integer they are, and instants with and without zone become one
kind.

## Contents
- **Parts.** `KeyAtom`, `KeyPart` with decidable equality, `Value.keyPart`.
- **Keys.** `Key`, `Key.ofValues?`.
-/

namespace Orm

open Number Text

/-! ## Parts -/

/-- A normalised value that is not an array. -/
inductive KeyAtom where
  | null
  | bool (value : Bool)
  | integer (value : Int)
  | float (bits : UInt64)
  | text (value : String)
  | bytes (value : List UInt8)
  | date (days : Int32)
  | time (micros : Int64)
  | instant (micros : Int64)
  | uuid (value : Uuid)
  | json (text : String)
  deriving DecidableEq, Repr

/-- A normalised value. -/
inductive KeyPart where
  | atom (atom : KeyAtom)
  | array (items : List KeyPart)
  deriving Repr

mutual

/-- Whether two parts are equal. -/
def KeyPart.decEq : (a b : KeyPart) → Decidable (a = b)
  | .atom a, .atom b =>
    if h : a = b then isTrue (congrArg _ h) else isFalse fun e => h (KeyPart.atom.inj e)
  | .array a, .array b =>
    match KeyPart.decEqItems a b with
    | isTrue h => isTrue (congrArg _ h)
    | isFalse h => isFalse fun e => h (KeyPart.array.inj e)
  | .atom _, .array _ => isFalse nofun
  | .array _, .atom _ => isFalse nofun

/-- Whether two lists of parts are equal. -/
def KeyPart.decEqItems : (a b : List KeyPart) → Decidable (a = b)
  | [], [] => isTrue rfl
  | x :: xs, y :: ys =>
    match KeyPart.decEq x y, KeyPart.decEqItems xs ys with
    | isTrue h, isTrue h' => isTrue (congr (congrArg _ h) h')
    | isFalse h, _ => isFalse fun e => h (List.cons.inj e).1
    | _, isFalse h => isFalse fun e => h (List.cons.inj e).2
  | [], _ :: _ => isFalse nofun
  | _ :: _, [] => isFalse nofun

end

instance : DecidableEq KeyPart := KeyPart.decEq

/-- A float: the integer it is if it lies below `2 ^ 53`, its bits otherwise. -/
def floatAtom (x : Binary64) : KeyAtom :=
  match x.whole? with
  | some n => if n.natAbs < 2 ^ 53 then .integer n else .float x.bits
  | none => .float x.bits

/-- A decimal: the 64-bit integer it is, with a fraction of zeros or none; its text otherwise. -/
def decimalAtom (s : String) : KeyAtom :=
  match readIntegral? s with
  | some n => .integer n
  | none => .text (trimmed s)

namespace Value

mutual

/-- The normal form of a value as part of a key. -/
def keyPart : Value → KeyPart
  | .null => .atom .null
  | .bool b => .atom (.bool b)
  | .tinyInt n => .atom (.integer n.toInt)
  | .smallInt n => .atom (.integer n.toInt)
  | .int n => .atom (.integer n.toInt)
  | .bigInt n => .atom (.integer n.toInt)
  | .real x => .atom (floatAtom x.widen)
  | .double x => .atom (floatAtom x)
  | .decimal s => .atom (decimalAtom s)
  | .text s => .atom (.text s)
  | .bytes bs => .atom (.bytes bs)
  | .date d => .atom (.date d)
  | .time t => .atom (.time t)
  | .timestamp us => .atom (.instant us)
  | .timestampTz us => .atom (.instant us)
  | .uuid u => .atom (.uuid u)
  | .json j => .atom (.json j.print)
  | .array items => .array (itemKeyParts items)
termination_by structural v => v

/-- The normal forms of the items of an array. -/
def itemKeyParts : List Value → List KeyPart
  | [] => []
  | item :: rest => keyPart item :: itemKeyParts rest
termination_by structural items => items

end

/-- Only NULL has the normal form of NULL. -/
theorem keyPart_eq_null_iff {value : Value} : value.keyPart = .atom .null ↔ value = .null := by
  cases value with
  | real x => simp only [keyPart, floatAtom]; split <;> (try split) <;> simp
  | double x => simp only [keyPart, floatAtom]; split <;> (try split) <;> simp
  | decimal s => simp only [keyPart, decimalAtom]; split <;> simp
  | _ => simp [keyPart]

end Value

/-! ## Keys -/

/-- The identity of an instance among the instances of one entity. -/
structure Key where
  parts : List KeyPart
  deriving DecidableEq, Repr

/-- The key made of values, unless the normal form of all of them is that of NULL. -/
def Key.ofValues? (values : List Value) : Option Key :=
  let parts := values.map Value.keyPart
  if parts.all (· == .atom .null) then none else some ⟨parts⟩

/-- There is no key exactly when every value is NULL. -/
theorem Key.ofValues?_eq_none_iff {values : List Value} :
    Key.ofValues? values = none ↔ ∀ v ∈ values, v = .null := by
  simp [Key.ofValues?, Value.keyPart_eq_null_iff]

/-- A key holds the normal forms of its values in their order. -/
theorem Key.ofValues?_eq_some_iff {values : List Value} {key : Key} :
    Key.ofValues? values = some key ↔
      (¬∀ v ∈ values, v = .null) ∧ key = ⟨values.map Value.keyPart⟩ := by
  rw [← Key.ofValues?_eq_none_iff]
  simp only [Key.ofValues?]
  split <;> simp [eq_comm]

end Orm
