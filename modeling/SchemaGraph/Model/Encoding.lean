import SchemaGraph.Document
import SchemaGraph.Model.Cache

/-!
# Caches as Documents

The keyed records that caches are written as, and how they are read back.  Keys are written in
the order of the fields; a missing optional list and an empty hint are left out.
-/

namespace SchemaGraph

open Document

/-! ## §1 Kinds -/

namespace FieldKind

/-- The word a kind is written as. -/
def word : FieldKind → String
  | .scalar => "scalar"
  | .enumerated => "enumerated"
  | .nested => "nested_simple"
  | .list => "list_simple"
  | .polymorphicList => "list_polymorphic"
  | .metadata => "metadata"
  | .external => "external_reference"

/-- The kinds in the order of their declaration. -/
def all : List FieldKind :=
  [.scalar, .enumerated, .nested, .list, .polymorphicList, .metadata, .external]

/-- The kind of a word. -/
def ofWord? (w : String) : Option FieldKind := all.find? (fun k => k.word = w)

end FieldKind

/-! ## §2 Fields -/

namespace Field

/-- The keys of a field. -/
def keys : List String :=
  ["name", "declared_type_name", "kind", "enum_values", "variant_ids", "schema_id",
    "child_fields", "reference_hint", "has_localization_handle", "must_localize"]

/-- An entry that is left out when there is no value. -/
def optionalEntry {α : Type} (key : String) (encode : α → Json) (value : Option α) :
    List (String × Json) :=
  match value with
  | some x => [(key, encode x)]
  | none => []

/-- A list of texts as a document. -/
def textsToJson (xs : List String) : Json := .arr (xs.map .str)

/-- A list of handles as a document. -/
def handlesToJson (hs : List Handle) : Json := .arr (hs.map .int)

/-- The entries that come before the children. -/
def leadingEntries (f : Field) : List (String × Json) :=
  [("name", .str f.name), ("declared_type_name", .str f.declaredType),
    ("kind", .str f.kind.word)]
    ++ optionalEntry "enum_values" textsToJson f.enumValues
    ++ optionalEntry "variant_ids" handlesToJson f.variantIds
    ++ [("schema_id", .int f.schemaId)]

/-- The entries that come after the children. -/
def trailingEntries (f : Field) : List (String × Json) :=
  (if f.hint = "" then [] else [("reference_hint", .str f.hint)])
    ++ [("has_localization_handle", .bool f.hasLocalizationHandle),
      ("must_localize", .bool f.mustLocalize)]

mutual

/-- A field as a document. -/
def toJson (f : Field) : Json :=
  match f with
  | ⟨n, t, k, e, v, s, none, h, l, m⟩ =>
    .obj (leadingEntries ⟨n, t, k, e, v, s, none, h, l, m⟩
      ++ trailingEntries ⟨n, t, k, e, v, s, none, h, l, m⟩)
  | ⟨n, t, k, e, v, s, some children, h, l, m⟩ =>
    .obj (leadingEntries ⟨n, t, k, e, v, s, none, h, l, m⟩
      ++ ("child_fields", .arr (listToJson children))
        :: trailingEntries ⟨n, t, k, e, v, s, none, h, l, m⟩)

/-- A list of fields as documents. -/
def listToJson : List Field → List Json
  | [] => []
  | f :: fs => toJson f :: listToJson fs

end

/-- A list of fields as one document. -/
def fieldsToJson (fs : List Field) : Json := .arr (listToJson fs)

/-- Reads a field whose children nest less than `depth` deep. -/
def readWithin? : (depth : Nat) → Json → Option Field
  | 0, _ => none
  | depth + 1, j =>
    match fields? keys j with
    | some [name, declaredType, kind, enumValues, variantIds, schemaId, children, hint,
        hasLocalizationHandle, mustLocalize] => do
      return {
        name := ← required text? name
        declaredType := ← required text? declaredType
        kind := ← required (wordOf? FieldKind.ofWord?) kind
        enumValues := ← optional (listOf? text?) enumValues
        variantIds := ← optional (listOf? int32?) variantIds
        schemaId := ← defaulted noHandle int32? schemaId
        -- The depth bounds the nesting of fields, not their number.
        children := ← optional (listOf? (readWithin? depth)) children
        hint := ← defaulted "" text? hint
        hasLocalizationHandle := ← defaulted false flag? hasLocalizationHandle
        mustLocalize := ← defaulted false flag? mustLocalize }
    | _ => none

/-- Reads a field. -/
def read? (j : Json) : Option Field := readWithin? (j.height + 1) j

end Field

/-! ## §3 Records -/

namespace Schema

/-- A schema as a document. -/
def toJson (s : Schema) : Json :=
  .obj [("full_name", .str s.fullName), ("fields", Field.fieldsToJson s.fields)]

/-- Reads a schema. -/
def read? (j : Json) : Option Schema :=
  match fields? ["full_name", "fields"] j with
  | some [fullName, fields] => do
    return {
      fullName := ← required text? fullName
      fields := ← required (listOf? Field.read?) fields }
  | _ => none

end Schema

namespace Variant

/-- A variant as a document. -/
def toJson (v : Variant) : Json :=
  .obj [("full_name", .str v.fullName), ("schema_id", .int v.schemaId),
    ("is_special_kind", .bool v.isSpecialKind), ("fields", Field.fieldsToJson v.fields)]

/-- Reads a variant. -/
def read? (j : Json) : Option Variant :=
  match fields? ["full_name", "schema_id", "is_special_kind", "fields"] j with
  | some [fullName, schemaId, isSpecialKind, fields] => do
    return {
      fullName := ← required text? fullName
      schemaId := ← defaulted noHandle int32? schemaId
      isSpecialKind := ← defaulted false flag? isSpecialKind
      fields := ← defaulted [] (listOf? Field.read?) fields }
  | _ => none

end Variant

namespace Definition

/-- A definition as a document. -/
def toJson (d : Definition) : Json :=
  .obj [("tag_name", .str d.tagName), ("name", .str d.name),
    ("parent_name", .str d.parentName), ("is_abstract", .bool d.isAbstract),
    ("ignore_validation_errors", .bool d.ignoreValidationErrors),
    ("full_name", .str d.fullName), ("fields", Field.fieldsToJson d.fields)]

/-- Reads a definition. -/
def read? (j : Json) : Option Definition :=
  match fields? ["tag_name", "name", "parent_name", "is_abstract", "ignore_validation_errors",
      "full_name", "fields"] j with
  | some [tagName, name, parentName, isAbstract, ignoreValidationErrors, fullName, fields] => do
    return {
      tagName := ← required text? tagName
      name := ← required text? name
      parentName := ← required text? parentName
      isAbstract := ← defaulted false flag? isAbstract
      ignoreValidationErrors := ← defaulted false flag? ignoreValidationErrors
      fullName := ← required text? fullName
      fields := ← required (listOf? Field.read?) fields }
  | _ => none

end Definition

/-! ## §4 Caches -/

/-- A sorted map as a document. -/
def SortedMap.toJson {α : Type} (encode : α → Json) (m : SortedMap α) : Json :=
  .obj (m.entries.map fun e => (e.1, encode e.2))

namespace Cache

/-- A cache as a document. -/
def toJson (c : Cache) : Json :=
  .obj [("definitions", .arr (c.definitions.map Definition.toJson)),
    ("enumerated_value_catalog", c.catalog.toJson Field.textsToJson),
    ("schemas", .arr (c.schemas.map Schema.toJson)),
    ("variants", .arr (c.variants.map Variant.toJson)),
    ("cast_table", c.castTable.toJson .str)]

/-- Reads a cache. -/
def read? (j : Json) : Option Cache :=
  match fields? ["definitions", "enumerated_value_catalog", "schemas", "variants",
      "cast_table"] j with
  | some [definitions, catalog, schemas, variants, castTable] => do
    return {
      definitions := ← defaulted [] (listOf? Definition.read?) definitions
      catalog := ← defaulted .empty (mapOf? (listOf? text?)) catalog
      schemas := ← defaulted [] (listOf? Schema.read?) schemas
      variants := ← defaulted [] (listOf? Variant.read?) variants
      castTable := ← defaulted .empty (mapOf? text?) castTable }
  | _ => none

end Cache

end SchemaGraph
