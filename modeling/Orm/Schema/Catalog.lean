import Orm.Schema.Descent

/-!
# `Orm.Schema.Catalog` — described types kept for later

A catalog describes each type once. What a request describes is kept, also the ancestors of a type
whose own description fails.

Requests may run on one catalog at the same time. So a request is written as the steps that it takes
on the catalog: between two of them other requests may keep types. Of two that keep a type under one
name the first one counts.

## Contents
- **Catalogs.** `Catalog`, `Catalog.kept?`, `Catalog.keep`.
- **Requests.** `Catalog.Request` with its sequences and failures, `Request.step`, `Request.run`,
  `Catalog.ask`.
- **Descriptions.** `Catalog.describe`, `Catalog.subclasses`, `Catalog.descendants`.
-/

namespace Orm

open Schema

/-! ## Catalogs -/

/-- A schema and the types described so far, by the name they were asked for. -/
structure Catalog where
  schema : Schema
  kept : List (String × TypeModel)

namespace Catalog

/-- A catalog that has described nothing. -/
def ofSchema (schema : Schema) : Catalog := ⟨schema, []⟩

/-- The type kept under a name. -/
def kept? (c : Catalog) (name : String) : Option TypeModel :=
  c.kept.lookup name

/-- Keeps a type, unless one is kept under the name. -/
def keep (c : Catalog) (name : String) (t : TypeModel) : Catalog :=
  if (c.kept? name).isSome then c else { c with kept := (name, t) :: c.kept }

/-- The number of types kept. -/
def size (c : Catalog) : Nat :=
  c.kept.length

/-! ## Requests -/

/-- A request to a catalog, by its next step. -/
inductive Request (α : Type) where
  | answer (outcome : Except Error α)
  /-- The declarations are asked for; they are always the same. -/
  | declarations (next : Schema → Request α)
  /-- The type kept under a name is looked for. -/
  | look (name : String) (next : Option TypeModel → Request α)
  /-- A type is kept under a name; the request goes on with the one that counts. -/
  | keep (name : String) (type : TypeModel) (next : TypeModel → Request α)

namespace Request

variable {α β : Type}

/-- A request and then one that depends on its answer. -/
def bind : Request α → (α → Request β) → Request β
  | answer (.ok a), f => f a
  | answer (.error e), _ => answer (.error e)
  | declarations next, f => declarations fun s => (next s).bind f
  | look name next, f => look name fun found => (next found).bind f
  | keep name t next, f => keep name t fun kept => (next kept).bind f

/-- A request and one to make when it fails. -/
def orElse : Request α → (Error → Request α) → Request α
  | answer (.ok a), _ => answer (.ok a)
  | answer (.error e), handle => handle e
  | declarations next, handle => declarations fun s => (next s).orElse handle
  | look name next, handle => look name fun found => (next found).orElse handle
  | keep name t next, handle => keep name t fun kept => (next kept).orElse handle

instance : Monad Request where
  pure a := answer (.ok a)
  bind := bind

instance : MonadExceptOf Error Request where
  throw e := answer (.error e)
  tryCatch := orElse

instance : MonadLift (Except Error) Request where
  monadLift := answer

/-- The next step of a request on a catalog: what is left of it, and the catalog after the step. -/
def step : Request α → Catalog → Option (Request α × Catalog)
  | answer _, _ => none
  | declarations next, c => some (next c.schema, c)
  | look name next, c => some (next (c.kept? name), c)
  | keep name t next, c => some (next ((c.kept? name).getD t), c.keep name t)

/-- All steps of a request without others between them: the answer and the catalog after it. -/
def run : Request α → Catalog → Except Error α × Catalog
  | answer outcome, c => (outcome, c)
  | declarations next, c => (next c.schema).run c
  | look name next, c => (next (c.kept? name)).run c
  | keep name t next, c => (next ((c.kept? name).getD t)).run (c.keep name t)

end Request

/-- A request to a catalog; what it keeps remains when it fails. -/
abbrev Cached := Request

/-- The answer to a request and the catalog after it. -/
def ask {α : Type} (c : Catalog) (request : Cached α) : Except Error α × Catalog :=
  request.run c

/-! ## Descriptions -/

/-- The declarations of the catalog. -/
def declarations : Cached Schema :=
  .declarations pure

/-- The type kept under a name. -/
def look (name : String) : Cached (Option TypeModel) :=
  .look name pure

/-- A described type, kept under its name; the one that was kept first counts. -/
def share (name : String) (t : TypeModel) : Cached TypeModel :=
  .keep name t pure

/-- Describes a type that was reached along a chain of subclasses, unless it is kept. -/
def describeFrom (s : Schema) : Nat → List String → String → Cached TypeModel
  | 0, chain, name => throw (.inheritanceLoop chain name)
  | fuel + 1, chain, name => do
    match ← look name with
    | some t => return t
    | none =>
      if chain.contains name then throw (.inheritanceLoop chain name)
      else match s.find? name with
        | none => throw (.noDeclaration name)
        | some decl =>
          if decl.name.isEmpty then throw .namelessType
          else do
            let parent ← match decl.superclass with
              | none => pure none
              | some parent => some <$> describeFrom s fuel (chain ++ [name]) parent
            let own ← (describeLayer s decl : Except Error TypeLayer)
            share name (.extending own parent)

/-- The described type of a name. -/
def describe (name : String) : Cached TypeModel := do
  let s ← declarations
  describeFrom s (s.size + 1) [] name

/-- The subclasses of a type. -/
def subclasses (base : TypeModel) : Cached (List TypeModel) :=
  subclassesBy describe base

/-- The descendants of a type. -/
def descendants (base : TypeModel) : Cached (List TypeModel) := do
  let s ← declarations
  descendantsBy describe s.size base

end Catalog

end Orm
