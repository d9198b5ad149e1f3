/-!
# `Orm.Number.Power` — powers of numbers

The powers of natural numbers and integers that all else computes with are those of the core
library, also in a module that knows the powers of a monoid.

## Contents
- **Powers.** `powOfCore`.
-/

namespace Orm.Number

/-- The powers of the core library come before any others. -/
@[default_instance 20000]
instance (priority := 2000) powOfCore {α : Type} [NatPow α] : Pow α Nat :=
  instPowNat

end Orm.Number
