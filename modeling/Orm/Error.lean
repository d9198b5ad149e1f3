import Orm.Value.Coercion

/-!
# `Orm.Error` — what can go wrong

Every failure is a mismatch: of declarations with each other, of a statement with its parameters, or
of a row with the declarations. Each constructor is one cause; `Error.kind` sorts the causes and
`Error.message` puts them into words.

## Contents
- **Kinds.** `ErrorKind`, `ErrorKind.text`.
- **Causes.** `Error`, `Error.kind`.
- **Words.** `Error.detail`, `Error.subject?`, `Error.message`.
-/

namespace Orm

open Text

/-! ## Kinds -/

/-- The kinds of failure. -/
inductive ErrorKind where
  | missingTable
  | unknownType
  | unmappedRelation
  | unresolvedMarker
  | unregisteredSubtype
  | cyclicRelation
  | duplicateAlias
  | missingKey
  | parameterMismatch
  | invalidDefinition
  | unterminatedLiteral
  | coercion
  | source
  deriving DecidableEq, Repr

/-- What the message of a kind begins with. -/
def ErrorKind.text : ErrorKind → String
  | .missingTable => "missing table mapping"
  | .unknownType => "unknown type"
  | .unmappedRelation => "unmapped relation target"
  | .unresolvedMarker => "unresolved marker"
  | .unregisteredSubtype => "unregistered subtype"
  | .cyclicRelation => "cyclic relation"
  | .duplicateAlias => "duplicate alias"
  | .missingKey => "missing primary key"
  | .parameterMismatch => "parameter mismatch"
  | .invalidDefinition => "invalid definition"
  | .unterminatedLiteral => "parse error at byte"
  | .coercion => "cannot convert"
  | .source => "row source error"

/-! ## Causes -/

/-- The causes of failure. -/
inductive Error where
  /-- Neither the type nor an ancestor declares a table. -/
  | noTable (type : String)
  /-- A subclass could not be told apart from the type it extends. -/
  | subclassWithoutTable (subclass base : String)
  /-- No source declares the type. -/
  | noDeclaration (type : String)
  /-- A field names a type that no source declares. -/
  | unknownFieldType (owner field target : String)
  /-- A field names a type that is neither mapped nor can be embedded. -/
  | unmappedField (owner field target : String)
  /-- A reference of a statement names no alias. -/
  | unresolvedReference (name : String)
  /-- A type is listed as a subclass of one that it does not extend. -/
  | foreignSubclass (subclass base : String) (superclass : Option String)
  /-- A type is not listed below the type that declares the discriminator. -/
  | unregisteredSubtype (type base : String)
  /-- A field leads back to a type that is being walked. -/
  | cyclicField (owner field path target : String)
  /-- Two joined tables would have one name. -/
  | duplicateAlias (path : String)
  /-- Tables of a hierarchy cannot be joined without a key. -/
  | noHierarchyKey (type : String)
  /-- A join cannot be inferred from none or many key fields. -/
  | noSingleKey (type : String) (keys : Nat)
  /-- Markers and values differ in number. -/
  | markerCount (markers values : Nat)
  /-- A named marker has no value. -/
  | unboundName (name : String)
  /-- A type is its own ancestor. -/
  | inheritanceLoop (chain : List String) (type : String)
  /-- A declaration has no name. -/
  | namelessType
  /-- A text is no configuration. -/
  | badConfiguration
  /-- A text is no list of declarations. -/
  | badDeclarations
  /-- There is nothing to select from. -/
  | emptyPlan
  /-- A string literal is not closed; it starts at a byte of the text. -/
  | openLiteral (position : Nat)
  /-- A value does not fit a field. -/
  | unfitValue (type field path : String) (rejection : Rejection)
  /-- The connection reported a failure. -/
  | source (message : String)
  deriving DecidableEq, Repr

namespace Error

/-- The kind of a failure. -/
def kind : Error → ErrorKind
  | .noTable _ | .subclassWithoutTable .. => .missingTable
  | .noDeclaration _ | .unknownFieldType .. => .unknownType
  | .unmappedField .. => .unmappedRelation
  | .unresolvedReference _ => .unresolvedMarker
  | .foreignSubclass .. | .unregisteredSubtype .. => .unregisteredSubtype
  | .cyclicField .. => .cyclicRelation
  | .duplicateAlias _ => .duplicateAlias
  | .noHierarchyKey _ | .noSingleKey .. => .missingKey
  | .markerCount .. | .unboundName _ => .parameterMismatch
  | .inheritanceLoop .. | .namelessType | .badConfiguration | .badDeclarations | .emptyPlan =>
    .invalidDefinition
  | .openLiteral _ => .unterminatedLiteral
  | .unfitValue .. => .coercion
  | .source _ => .source

/-! ## Words -/

/-- The cause in words, after the text of its kind. -/
def detail : Error → String
  | .noTable _ => "no table declared anywhere in the type's ancestry"
  | .subclassWithoutTable subclass base =>
    "subclass " ++ subclass ++ " of " ++ base ++ " has neither its own table nor a discriminator"
  | .noDeclaration type => "no metadata for " ++ type
  | .unknownFieldType owner field target =>
    "field " ++ owner ++ "." ++ field ++ " has type " ++ target ++
      ", which is neither a value mapping nor a known type"
  | .unmappedField owner field target =>
    "field " ++ owner ++ "." ++ field ++ " targets " ++ target ++
      ", which has no table mapping and cannot be embedded"
  | .unresolvedReference name => "\x7b" ++ name ++ "\x7d names no alias of the compiled query"
  | .foreignSubclass subclass base superclass =>
    subclass ++ " is listed as a subclass of " ++ base ++ " but its superclass is " ++
      superclass.getD "<none>"
  | .unregisteredSubtype type base =>
    type ++ " is not registered under the inheritance group of " ++ base
  | .cyclicField owner field path target =>
    owner ++ "." ++ field ++ " at " ++ path ++ " leads back to " ++ target ++
      ", which is already being walked"
  | .duplicateAlias path => "alias path " ++ path ++ " is produced twice"
  | .noHierarchyKey _ =>
    "inheritance levels are joined on the primary key, but none is declared"
  | .noSingleKey type keys =>
    "cannot infer a join: " ++ type ++ " has " ++ toString keys ++
      " id fields, exactly one is required (declare a join condition instead)"
  | .markerCount markers values =>
    "statement has " ++ toString markers ++ " positional markers but " ++ toString values ++
      " values were supplied"
  | .unboundName name => "no value bound for :" ++ name
  | .inheritanceLoop chain type =>
    "inheritance loop: " ++ joinWith " -> " chain ++ " -> " ++ type
  | .namelessType => "type definition without a name"
  | .badConfiguration => "invalid configuration:"
  | .badDeclarations => "invalid type definitions:"
  | .emptyPlan => "cannot render an empty join graph"
  | .openLiteral _ => "unterminated quoted string literal"
  | .unfitValue _ _ _ rejection => rejection.message
  | .source message => message

/-- The type that a failure is about, where its message ends with it. -/
def subject? : Error → Option String
  | .noTable type => some type
  | .subclassWithoutTable subclass _ => some subclass
  | .unknownFieldType owner _ _ => some owner
  | .unmappedField owner _ _ => some owner
  | .foreignSubclass _ base _ => some base
  | .unregisteredSubtype type _ => some type
  | .cyclicField owner _ _ _ => some owner
  | .noHierarchyKey type => some type
  | .noSingleKey type _ => some type
  | .inheritanceLoop _ type => some type
  | _ => none

/-- The message of a failure. -/
def message (e : Error) : String :=
  match e with
  | .openLiteral position => e.kind.text ++ " " ++ toString position ++ ": " ++ e.detail
  | .unfitValue type field path rejection =>
    e.kind.text ++ " " ++ rejection.found ++ " to " ++ rejection.expected ++ " for " ++ type ++
      "." ++ field ++ " (alias " ++ path ++ "): " ++ e.detail
  | _ =>
    e.kind.text ++ ": " ++ e.detail ++
      match e.subject? with
      | some type => " (type " ++ type ++ ")"
      | none => ""

end Error

end Orm
