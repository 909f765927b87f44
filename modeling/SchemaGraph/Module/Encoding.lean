import SchemaGraph.Model.Encoding
import SchemaGraph.Module.Declaration

/-!
# Module Manifests as Documents

The keyed records that module manifests are written as, and how they are read back from any
document format.
-/

namespace SchemaGraph

open Document

variable {m : Type → Type} [Monad m] [MonadExceptOf Unit m] {ν : Type} [Document m ν]

/-! ## §1 Words -/

/-- The word a sort of member is written as. -/
def MemberKind.word : MemberKind → String
  | .field => "field"
  | .property => "property"

/-- The sort of member of a word. -/
def MemberKind.ofWord? (w : String) : Option MemberKind :=
  [MemberKind.field, .property].find? (fun k => k.word = w)

/-- The word a sort of type is written as. -/
def TypeKind.word : TypeKind → String
  | .classType => "class"
  | .valueType => "struct"
  | .interfaceType => "interface"
  | .enumeration => "enum"

/-- The sort of type of a word. -/
def TypeKind.ofWord? (w : String) : Option TypeKind :=
  [TypeKind.classType, .valueType, .interfaceType, .enumeration].find? (fun k => k.word = w)

/-! ## §2 Members -/

/-- A list that is left out when it is empty. -/
def listEntry {α : Type} (key : String) (encode : α → Json) (xs : List α) :
    List (String × Json) :=
  match xs with
  | [] => []
  | xs => [(key, .arr (xs.map encode))]

namespace Member

/-- A member as a document. -/
def toJson (m : Member) : Json :=
  .obj ([("name", .str m.name), ("type", m.type.toJson), ("member", .str m.kind.word),
      ("is_static", .bool m.isStatic), ("writable", .bool m.writable),
      ("compiler_generated", .bool m.compilerGenerated)]
    ++ listEntry "attributes" .str m.attributes)

/-- Reads a member. -/
def read? (v : ν) : m Member := do
  match ← fields? ["name", "type", "member", "is_static", "writable", "compiler_generated",
      "attributes"] v with
  | [name, type, kind, isStatic, writable, compilerGenerated, attributes] => do
    return {
      name := ← required text? name
      type := ← required TypeRef.read? type
      kind := ← defaulted .field (wordOf? MemberKind.ofWord?) kind
      isStatic := ← defaulted false flag? isStatic
      writable := ← defaulted true flag? writable
      compilerGenerated := ← defaulted false flag? compilerGenerated
      attributes := ← defaulted [] (listOf? text?) attributes }
  | _ => throw ()

end Member

/-! ## §3 Types -/

namespace TypeInfo

/-- A type as a document. -/
def toJson (t : TypeInfo) : Json :=
  .obj ([("full_name", .str t.fullName), ("name", .str t.name)]
    ++ Field.optionalEntry "namespace" .str t.spaceName
    ++ Field.optionalEntry "base" .str t.base
    ++ [("kind", .str t.kind.word), ("is_abstract", .bool t.isAbstract),
      ("special_name", .bool t.specialName), ("generic_parameter", .bool t.genericParameter)]
    ++ listEntry "enum_values" .str t.enumValues
    ++ listEntry "attributes" .str t.attributes
    ++ Field.optionalEntry "load_error" .str t.loadError
    ++ [("members", .arr (t.members.map Member.toJson))])

/-- The keys of a type. -/
def keys : List String :=
  ["full_name", "name", "namespace", "base", "kind", "is_abstract", "special_name",
    "generic_parameter", "enum_values", "attributes", "load_error", "members"]

/-- Reads a type. -/
def read? (v : ν) : m TypeInfo := do
  match ← fields? keys v with
  | [fullName, name, namespaceName, base, kind, isAbstract, specialName, genericParameter,
      enumValues, attributes, loadError, members] => do
    return {
      fullName := ← required text? fullName
      -- Manifests leave out what is empty or false, so most parts have defaults.
      name := ← defaulted "" text? name
      spaceName := ← optional text? namespaceName
      base := ← optional text? base
      kind := ← defaulted .classType (wordOf? TypeKind.ofWord?) kind
      isAbstract := ← defaulted false flag? isAbstract
      specialName := ← defaulted false flag? specialName
      genericParameter := ← defaulted false flag? genericParameter
      enumValues := ← defaulted [] (listOf? text?) enumValues
      attributes := ← defaulted [] (listOf? text?) attributes
      loadError := ← optional text? loadError
      members := ← defaulted [] (listOf? Member.read?) members }
  | _ => throw ()

end TypeInfo

/-! ## §4 Manifests -/

namespace ModuleManifest

/-- A manifest as a document. -/
def toJson (m : ModuleManifest) : Json :=
  .obj ([("module", .str m.name), ("types", .arr (m.types.map TypeInfo.toJson))]
    ++ listEntry "imports" TypeInfo.toJson m.imports)

/-- Reads a manifest. -/
def read? (v : ν) : m ModuleManifest := do
  match ← fields? ["module", "types", "imports"] v with
  | [name, types, imports] => do
    return {
      name := ← defaulted "" text? name
      types := ← defaulted [] (listOf? TypeInfo.read?) types
      imports := ← defaulted [] (listOf? TypeInfo.read?) imports }
  | _ => throw ()

end ModuleManifest

end SchemaGraph
