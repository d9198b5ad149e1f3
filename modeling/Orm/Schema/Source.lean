import Orm.Schema.Document
import Orm.Error

/-!
# `Orm.Schema.Source` — where declarations come from

A source serves declarations by name; of two with one name the later one counts. A schema asks its
sources in order.

## Contents
- **Sources.** `Source`, `Source.add`, `Source.find?`, `Source.ofList`, `Source.load`.
- **Schemas.** `Schema`, `Schema.find?`, `Schema.size`.
-/

namespace Orm.Schema

/-! ## Sources -/

/-- Whether declarations stand in the program text or are made when it runs. -/
inductive SourceKind where
  | fixed
  | runtime
  deriving DecidableEq, Repr

/-- Declarations of one origin, each name once. -/
structure Source where
  kind : SourceKind
  decls : List TypeDecl
  deriving DecidableEq, Repr

namespace Source

/-- One more declaration, in place of one with the same name. -/
def add (s : Source) (decl : TypeDecl) : Source :=
  { s with decls := s.decls.filter (·.name != decl.name) ++ [decl] }

/-- The declaration of a name. -/
def find? (s : Source) (name : String) : Option TypeDecl :=
  s.decls.find? (·.name == name)

/-- A source of declarations, added in order. -/
def ofList (kind : SourceKind) (decls : List TypeDecl) : Source :=
  decls.foldl add ⟨kind, []⟩

/-- The number of declarations. -/
def size (s : Source) : Nat :=
  s.decls.length

/-- A source of the declarations in a JSON text. -/
def load (text : String) : Except Error Source :=
  match (Document.parse text).bind (Document.list? readType) with
  | some decls => .ok (ofList .runtime decls)
  | none => .error .badDeclarations

/-- A declaration is served under its own name. -/
theorem name_of_find? {s : Source} {name : String} {decl : TypeDecl}
    (h : s.find? name = some decl) : decl.name = name := by
  simpa using List.find?_some h

/-- The declaration added last is the one that counts. -/
theorem find?_add (s : Source) (decl : TypeDecl) (name : String) :
    (s.add decl).find? name = if decl.name = name then some decl else s.find? name := by
  simp only [find?, add, List.find?_append]
  by_cases h : decl.name = name
  · subst h
    have absent : (s.decls.filter (·.name != decl.name)).find? (·.name == decl.name) = none := by
      simp [List.find?_eq_none]
    simp [absent]
  · have same : (s.decls.filter (·.name != decl.name)).find? (·.name == name) =
        s.decls.find? (·.name == name) := by
      induction s.decls with
      | nil => rfl
      | cons d rest ih =>
        by_cases hd : d.name = decl.name
        · simp [hd, h, ih]
        · by_cases hn : d.name = name <;> simp [hd, hn, ih, Ne.symm h]
    rw [same]
    simp [h]

end Source

end Orm.Schema

namespace Orm

open Schema

/-! ## Schemas -/

/-- All declarations known to a program. -/
structure Schema where
  sources : List Source
  deriving DecidableEq, Repr

namespace Schema

/-- The declaration of a name in the first source that has one. -/
def find? (s : Schema) (name : String) : Option TypeDecl :=
  s.sources.findSome? (·.find? name)

/-- A bound on the number of declared names. -/
def size (s : Schema) : Nat :=
  s.sources.foldl (fun n source => n + source.size) 0

/-- A declaration is served under its own name. -/
theorem name_of_find? {s : Schema} {name : String} {decl : TypeDecl}
    (h : s.find? name = some decl) : decl.name = name := by
  obtain ⟨source, -, found⟩ := List.exists_of_findSome?_eq_some h
  exact Source.name_of_find? found

end Schema

end Orm
