import Orm.Schema.Description

/-!
# `Orm.Schema.Descent` — subclasses and descendants

A type lists its subclasses, and each of them must extend it. The descendants are found depth first,
in the order of the lists. Both are written for any way to describe a type that can fail.

## Contents
- **Anyhow.** `subclassesBy`, `descendantsBy`.
- **In a schema.** `Schema.subclasses`, `Schema.descendants`.
-/

namespace Orm.Schema

/-! ## Anyhow -/

section

variable {m : Type → Type} [Monad m] [MonadExceptOf Error m] (describe : String → m TypeModel)

/-- The type of a name that a base lists as its subclass. -/
def subclassBy (base : TypeModel) (name : String) : m TypeModel := do
  let sub ← describe name
  let parent := sub.superclass?.map (·.name)
  if parent = some base.name then return sub
  else throw (.foreignSubclass sub.name base.name parent)

/-- The subclasses of a type, in the order in which it lists them. -/
def subclassesBy (base : TypeModel) : m (List TypeModel) :=
  base.subclasses.mapM (subclassBy describe base)

/-- The descendants of a type down to a depth, each before its own descendants. -/
def descendantsBy : Nat → TypeModel → m (List TypeModel)
  | 0, _ => return []
  | depth + 1, base => do
    let subs ← subclassesBy describe base
    let parts ← subs.mapM fun sub => return sub :: (← descendantsBy depth sub)
    return parts.flatten

end

/-! ## In a schema -/

variable (s : Schema)

/-- The subclasses of a type. -/
def subclasses (base : TypeModel) : Except Error (List TypeModel) :=
  subclassesBy (describe s) base

/-- The descendants of a type. Every step down lengthens the ancestry, which cannot be longer than
the schema, so the depth is enough. -/
def descendants (base : TypeModel) : Except Error (List TypeModel) :=
  descendantsBy (describe s) s.size base

end Orm.Schema
