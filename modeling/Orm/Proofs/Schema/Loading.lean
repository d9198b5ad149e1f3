import Orm.Config
import Orm.Schema.Source
import Orm.Proofs.Json.Records

/-!
# `Proofs.Schema.Loading` — declarations and configurations outlive their JSON text

Every record is written with all its members, so no default takes part in reading it back; a member
that was absent is `null`, and every choice is found again under its name. With that, each reader
restores what the writer of the same record has put down, from the tables at the bottom to the types
and the configuration at the top. That the text is a compact one, or that its members stand in the
order in which they are sorted, is not used.

## Contents
- **Declarations.** `restores_tableJson`, `restores_linkJson`, `restores_attrsJson`,
  `restores_fieldTypeJson`, `restores_fieldJson`, `restores_typeJson`; nothing in them is a float.
- **Sources.** `ofList_of_nodup`, `find?_iff_of_nodup`.
- **Configurations.** `restores_dialectJson`, `restores_configJson`.
- **Main result.** `load_written`.
-/

namespace Orm

open Json Document Sql Schema

namespace Schema

/-! ## Declarations -/

theorem restores_textJson (text : Option String) :
    Restores (nullable? text?) (textJson text) text :=
  restores_nullable rfl fun s _ => restores_text s

theorem restores_flagJson (flag : Option Bool) :
    Restores (nullable? bool?) (flagJson flag) flag :=
  restores_nullable rfl fun b _ => restores_bool b

theorem restores_textsJson (texts : List String) :
    Restores (list? text?) (textsJson texts) texts :=
  restores_list fun s _ => restores_text s

/-- A table is read back. -/
theorem restores_tableJson (table : TableName) :
    Restores readTable (tableJson table) table := by
  intro j written
  obtain ⟨fields, found, hold⟩ := record?_ofMembers ["schema", "name"] rfl (by decide) written
  have schema := hold.optional "schema" (restores_textJson table.schema) (by simp)
  have name := hold.required "name" (restores_text table.name) (by simp)
  unfold readTable
  exact read_then found <| read_then schema <| read_then name <| rfl

/-- A link table is read back. -/
theorem restores_linkJson (link : LinkTable) : Restores readLink link.toJson link := by
  intro j written
  obtain ⟨fields, found, hold⟩ :=
    record?_ofMembers ["table", "owner_column", "target_column"] rfl (by decide) written
  have table := hold.required "table" (restores_tableJson link.table) (by simp)
  have owner := hold.optional "owner_column" (restores_textJson link.ownerColumn) (by simp)
  have target := hold.optional "target_column" (restores_textJson link.targetColumn) (by simp)
  unfold readLink
  exact read_then found <| read_then table <| read_then owner <| read_then target <| rfl

/-- A set of attributes is read back. -/
theorem restores_attrsJson (a : FieldAttrs) : Restores readAttrs a.toJson a := by
  intro j written
  obtain ⟨fields, found, hold⟩ := record?_ofMembers attrNames rfl (by decide) written
  have id := hold.optional "id" (restores_flagJson a.id) (by simp)
  have transient := hold.optional "transient" (restores_flagJson a.transient) (by simp)
  have embedded := hold.optional "embedded" (restores_flagJson a.embedded) (by simp)
  have columnPrefix := hold.optional "prefix" (restores_textJson a.columnPrefix) (by simp)
  have lob := hold.optional "lob" (restores_flagJson a.lob) (by simp)
  have column := hold.optional "column" (restores_textJson a.column) (by simp)
  have joinColumn := hold.optional "join_column" (restores_textJson a.joinColumn) (by simp)
  have link := hold.optional "link"
    (restores_nullable rfl fun l (_ : l ∈ a.link) => restores_linkJson l) (by simp)
  have condition := hold.optional "join_condition" (restores_textJson a.joinCondition) (by simp)
  have sql := hold.optional "sql" (restores_textJson a.sql) (by simp)
  have groupBy := hold.optional "group_by" (restores_flagJson a.groupBy) (by simp)
  unfold readAttrs
  exact read_then found <| read_then id <| read_then transient <| read_then embedded <|
    read_then columnPrefix <| read_then lob <| read_then column <| read_then joinColumn <|
    read_then link <| read_then condition <| read_then sql <| read_then groupBy <| rfl

/-- The type of a field is read back. -/
theorem restores_fieldTypeJson (type : FieldType) : Restores readFieldType type.toJson type := by
  intro j written
  cases type with
  | value scalar =>
    obtain ⟨value, rfl, related⟩ := written.single
    obtain ⟨⟩ := related
    simp [readFieldType, ofJson, Document.ofMembers, ofMember, variant?, choice?, unit?,
      lookup_nameOf_scalar]
  | named name =>
    obtain ⟨value, rfl, related⟩ := written.single
    obtain ⟨⟩ := related
    simp [readFieldType, ofJson, Document.ofMembers, ofMember, variant?, text?]

/-- A field is read back. -/
theorem restores_fieldJson (f : FieldDecl) : Restores readField f.toJson f := by
  intro j written
  obtain ⟨fields, found, hold⟩ :=
    record?_ofMembers ["name", "ty", "cardinality", "attrs", "compat"] rfl (by decide) written
  have name := hold.required "name" (restores_text f.name) (by simp)
  have type := hold.required "ty" (restores_fieldTypeJson f.type) (by simp)
  have cardinality := hold.orElse "cardinality" .one
    (restores_choice (lookup_nameOf_cardinality f.cardinality)) (by simp)
  have attrs := hold.orElse "attrs" {} (restores_attrsJson f.attrs) (by simp)
  have compat := hold.orElse "compat" {} (restores_attrsJson f.compat) (by simp)
  unfold readField
  exact read_then found <| read_then name <| read_then type <| read_then cardinality <|
    read_then attrs <| read_then compat <| rfl

/-- A type is read back. -/
theorem restores_typeJson (t : TypeDecl) : Restores readType t.toJson t := by
  intro j written
  obtain ⟨fields, found, hold⟩ := record?_ofMembers typeFieldNames rfl (by decide) written
  have name := hold.orElse "name" "" (restores_text t.name) (by simp)
  have simpleName := hold.optional "simple_name" (restores_textJson t.simpleName) (by simp)
  have superclass := hold.optional "superclass" (restores_textJson t.superclass) (by simp)
  have table := hold.optional "table"
    (restores_nullable rfl fun n (_ : n ∈ t.table) => restores_tableJson n) (by simp)
  have compatTable := hold.optional "compat_table"
    (restores_nullable rfl fun n (_ : n ∈ t.compatTable) => restores_tableJson n) (by simp)
  have decls := hold.orElse "fields" []
    (restores_list fun f (_ : f ∈ t.fields) => restores_fieldJson f) (by simp)
  have subclasses := hold.orElse "subclasses" [] (restores_textsJson t.subclasses) (by simp)
  have discriminator :=
    hold.optional "discriminator" (restores_textJson t.discriminator) (by simp)
  have compatDiscriminator :=
    hold.optional "compat_discriminator" (restores_textJson t.compatDiscriminator) (by simp)
  have discriminatorValue :=
    hold.optional "discriminator_value" (restores_textJson t.discriminatorValue) (by simp)
  have isEnum := hold.orElse "is_enum" false (restores_bool t.isEnum) (by simp)
  have constants := hold.orElse "enum_constants" [] (restores_textsJson t.constants) (by simp)
  have embeddable := hold.orElse "embeddable" false (restores_bool t.embeddable) (by simp)
  have joins := hold.orElse "joins" [] (restores_textsJson t.joins) (by simp)
  have groupBy := hold.orElse "group_by" [] (restores_textsJson t.groupBy) (by simp)
  unfold readType
  exact read_then found <| read_then name <| read_then simpleName <| read_then superclass <|
    read_then table <| read_then compatTable <| read_then decls <| read_then subclasses <|
    read_then discriminator <| read_then compatDiscriminator <| read_then discriminatorValue <|
    read_then isEnum <| read_then constants <| read_then embeddable <| read_then joins <|
    read_then groupBy <| rfl

/-! ### No floats -/

@[simp] theorem floatFree_textJson (text : Option String) : (textJson text).FloatFree :=
  .nullable .string

@[simp] theorem floatFree_flagJson (flag : Option Bool) : (flagJson flag).FloatFree :=
  .nullable .bool

@[simp] theorem floatFree_textsJson (texts : List String) : (textsJson texts).FloatFree :=
  .list .string

@[simp] theorem floatFree_tableJson (table : TableName) : (tableJson table).FloatFree :=
  .ofMembers (by simp) (by simp)

@[simp] theorem floatFree_linkJson (link : LinkTable) : link.toJson.FloatFree :=
  .ofMembers (by simp) (by simp)

@[simp] theorem floatFree_attrsJson (a : FieldAttrs) : a.toJson.FloatFree :=
  .ofMembers (by simp) (by simp [FloatFree.nullable])

@[simp] theorem floatFree_fieldTypeJson (type : FieldType) : type.toJson.FloatFree := by
  cases type <;> exact .ofMembers (by simp) (by simp)

@[simp] theorem floatFree_fieldJson (f : FieldDecl) : f.toJson.FloatFree :=
  .ofMembers (by simp) (by simp)

@[simp] theorem floatFree_typeJson (t : TypeDecl) : t.toJson.FloatFree :=
  .ofMembers (by simp) (by simp [FloatFree.nullable, FloatFree.list])

/-! ## Sources -/

/-- Declarations with distinct names do not replace one another. -/
theorem ofList_of_nodup {kind : SourceKind} {decls : List TypeDecl}
    (distinct : (decls.map TypeDecl.name).Nodup) : Source.ofList kind decls = ⟨kind, decls⟩ := by
  suffices added : ∀ before : List TypeDecl, ((before ++ decls).map TypeDecl.name).Nodup →
      decls.foldl Source.add ⟨kind, before⟩ = ⟨kind, before ++ decls⟩ from added [] distinct
  induction decls with
  | nil => simp
  | cons decl rest ih =>
    intro before nodup
    have new : before.filter (·.name != decl.name) = before := by
      rw [List.filter_eq_self]
      intro d mem
      rw [bne_iff_ne]
      rintro same
      rw [List.map_append, List.map_cons, ← same] at nodup
      exact List.disjoint_of_nodup_append nodup (List.mem_map_of_mem mem) List.mem_cons_self
    have others := ih (List.nodup_cons.mp distinct).2 (before ++ [decl]) (by simpa using nodup)
    rw [List.foldl_cons, Source.add, new, others, List.append_assoc, List.singleton_append]

/-- A source of declarations with distinct names serves these and no others. -/
theorem find?_iff_of_nodup {kind : SourceKind} {decls : List TypeDecl}
    (distinct : (decls.map TypeDecl.name).Nodup) (name : String) (decl : TypeDecl) :
    (⟨kind, decls⟩ : Source).find? name = some decl ↔ decl ∈ decls ∧ decl.name = name := by
  constructor
  · intro found
    exact ⟨List.mem_of_find?_eq_some found, Source.name_of_find? found⟩
  · rintro ⟨mem, rfl⟩
    have served : (decls.find? (·.name == decl.name)).isSome := by
      rw [List.find?_isSome]
      exact ⟨decl, mem, beq_self_eq_true decl.name⟩
    obtain ⟨first, found⟩ := Option.isSome_iff_exists.mp served
    have named : first.name = decl.name := by simpa using List.find?_some found
    have same : first = decl :=
      List.inj_on_of_nodup_map distinct (List.mem_of_find?_eq_some found) mem named
    exact same ▸ found

end Schema

/-! ## Configurations -/

/-- A dialect is read back. -/
theorem restores_dialectJson (d : Dialect) : Restores readDialect d.toJson d := by
  intro j written
  obtain ⟨fields, found, hold⟩ :=
    record?_ofMembers ["quote", "quote_names", "schema", "placeholder"] rfl (by decide) written
  have use : schemaUseNames.lookup d.schema.name = some d.schema := by cases d.schema <;> decide
  have style : placeholderNames.lookup d.placeholder.name = some d.placeholder := by
    cases d.placeholder <;> decide
  have quote := hold.orElse "quote" Dialect.postgres.quote (restores_character d.quote) (by simp)
  have quoteNames :=
    hold.orElse "quote_names" Dialect.postgres.quoteNames (restores_bool d.quoteNames) (by simp)
  have schema := hold.orElse "schema" Dialect.postgres.schema (restores_choice use) (by simp)
  have placeholder :=
    hold.orElse "placeholder" Dialect.postgres.placeholder (restores_choice style) (by simp)
  unfold readDialect
  exact read_then found <| read_then quote <| read_then quoteNames <| read_then schema <|
    read_then placeholder <| rfl

/-- A configuration is read back when its number of rows is one that can be written. -/
theorem restores_configJson {c : Config} (inRange : ∀ n ∈ c.fetchSize, n ≤ maxFetchSize) :
    Restores readConfig c.toJson c := by
  intro j written
  obtain ⟨fields, found, hold⟩ :=
    record?_ofMembers ["dialect", "fetch_size"] rfl (by decide) written
  have size : Restores (nullable? (natural? maxFetchSize))
      ((c.fetchSize.map fun n : Nat => Json.int n).getD .null) c.fetchSize :=
    restores_nullable rfl fun n mem => restores_natural (inRange n mem) (inRange n mem)
  have dialect := hold.orElse "dialect" .postgres (restores_dialectJson c.dialect) (by simp)
  have fetchSize := hold.optional "fetch_size" size (by simp)
  unfold readConfig
  exact read_then found <| read_then dialect <| read_then fetchSize <| rfl

@[simp] theorem floatFree_dialectJson (d : Dialect) : d.toJson.FloatFree :=
  .ofMembers (by simp) (by simp)

@[simp] theorem floatFree_configJson (c : Config) : c.toJson.FloatFree :=
  .ofMembers (by simp) (by simp [FloatFree.nullable])

/-! ## Main result -/

/-- **Declarations and configurations outlive their JSON text.** Declarations with distinct names
that are written as an array, with the members of every object in whatever order, are served by the
source that is loaded from the text, and no others are; a configuration with a number of rows in
range is loaded as it was. The compact text is one with the right document, and so is any other
spelling of it. -/
theorem load_written :
    (∀ decls : List TypeDecl, (decls.map TypeDecl.name).Nodup →
      ∀ written, (Json.array (decls.map TypeDecl.toJson)).Rearranged written →
        Document.parse written.print = some (ofJson written) ∧
        ∀ text, Document.parse text = some (ofJson written) →
          ∃ source, Source.load text = .ok source ∧ source.kind = .runtime ∧
            source.size = decls.length ∧
            ∀ name decl, source.find? name = some decl ↔ decl ∈ decls ∧ decl.name = name) ∧
    ∀ c : Config, (∀ n ∈ c.fetchSize, n ≤ maxFetchSize) →
      ∀ written, c.toJson.Rearranged written →
        Document.parse written.print = some (ofJson written) ∧
        ∀ text, Document.parse text = some (ofJson written) → Config.load text = .ok c := by
  constructor
  · intro decls distinct written same
    have free : (Json.array (decls.map TypeDecl.toJson)).FloatFree := .list floatFree_typeJson
    refine ⟨parse_print (free.rearranged same), fun text parsed => ?_⟩
    have read : list? readType (ofJson written) = some decls :=
      restores_list (fun t _ => restores_typeJson t) written same
    refine ⟨⟨.runtime, decls⟩, ?_, rfl, rfl, find?_iff_of_nodup distinct⟩
    simp only [Source.load, parsed, Option.bind_some, read, ofList_of_nodup distinct]
  · intro c inRange written same
    refine ⟨parse_print ((floatFree_configJson c).rearranged same), fun text parsed => ?_⟩
    have read : readConfig (ofJson written) = some c := restores_configJson inRange written same
    simp only [Config.load, parsed, Option.bind_some, read]

/-- Declarations with most of what can be declared: tables with and without a schema, a link table,
attributes of both sets, an enumeration, and texts that have to be escaped. -/
def library : List TypeDecl := [
  { name := "lib::Book", table := some ⟨some "lib", "book"⟩, joins := ["join x on x.q = 'a\\b'"]
    fields := [
      { name := "id", type := .value .bigInt, attrs := { id := some true } },
      { name := "tags", type := .named "lib::Tag", cardinality := .list,
        attrs := { link := some ⟨⟨none, "book_tag"⟩, some "book_id", none⟩ },
        compat := { joinCondition := some "\x22b\x22 =\n\x22t\x22", transient := some false } }] },
  { name := "lib::Tag", simpleName := some "Tag", isEnum := true, constants := ["new", "old"] }]

theorem load_written_library :
    (∃ source, Source.load (Json.array (library.map TypeDecl.toJson)).print = .ok source ∧
      ∀ name decl, source.find? name = some decl ↔ decl ∈ library ∧ decl.name = name) ∧
    Config.load (Json.object [
      ("dialect", .object [("quote", .string "\x60"), ("quote_names", .bool true),
        ("schema", .string "qualified"), ("placeholder", .string "question")]),
      ("fetch_size", .int 500)]).print = .ok ⟨.mysql, some 500⟩ := by
  constructor
  · have free : (Json.array (library.map TypeDecl.toJson)).FloatFree := .list floatFree_typeJson
    obtain ⟨parsed, loaded⟩ := load_written.1 library (by decide) _ free.rearranged_self
    obtain ⟨source, load, -, -, serves⟩ := loaded _ parsed
    exact ⟨source, load, serves⟩
  · -- The members stand in the order of the declarations, which is not the sorted one.
    have dialect : Dialect.mysql.toJson.Rearranged (.object [("quote", .string "\x60"),
        ("quote_names", .bool true), ("schema", .string "qualified"),
        ("placeholder", .string "question")]) :=
      rearranged_ofMembers (by decide) (.cons (.of _ (.string _)) (.cons (.of _ (.bool _))
        (.cons (.of _ (.string _)) (.cons (.of _ (.string _)) .nil))))
    have config : (Config.toJson ⟨.mysql, some 500⟩).Rearranged (.object [
        ("dialect", .object [("quote", .string "\x60"), ("quote_names", .bool true),
          ("schema", .string "qualified"), ("placeholder", .string "question")]),
        ("fetch_size", .int 500)]) :=
      rearranged_ofMembers (by decide) (.cons (.of _ dialect) (.cons (.of _ (.int 500)) .nil))
    obtain ⟨parsed, loaded⟩ := load_written.2 ⟨.mysql, some 500⟩ (by decide) _ config
    exact loaded _ parsed

end Orm
