import SchemaGraph.Model.Encoding
import SchemaGraph.Text.Segment

/-!
# Conventions

Which types of a module are definitions, registries, components or scalars is a matter of naming
and marking conventions.  The standard conventions are those of the game the first modules came
from; every one of them can be set otherwise.
-/

namespace SchemaGraph

/-- The conventions by which a module is read. -/
structure Conventions where
  /-- The base type of every definition. -/
  definitionBase : String := "Verse.Def"
  /-- The attribute or base type of registries of named instances. -/
  registryMarker : String := "RimWorld.DefOf"
  localizationHandleMarker : String := "Verse.TranslationHandleAttribute"
  mustLocalizeMarker : String := "Verse.MustTranslateAttribute"
  /-- The root of every base chain. -/
  universalRoot : String := "System.Object"
  /-- Leading parts of the full names that are left out of the type graph. -/
  bannedNamespaces : List String := ["System", "UnityEngine"]
  /-- The full names of closed types. -/
  scalarTypes : List String :=
    ["System.Boolean", "System.Byte", "System.SByte", "System.Char", "System.Int16",
      "System.UInt16", "System.Int32", "System.UInt32", "System.Int64", "System.UInt64",
      "System.Single", "System.Double", "System.String", "System.Decimal", "System.DateTime",
      "UnityEngine.Vector2", "UnityEngine.Vector3", "UnityEngine.Color"]
  /-- The short names of closed types of any namespace. -/
  scalarShortNames : List String := ["IntRange", "FloatRange"]
  /-- What the short names of property types begin with. -/
  propertiesLead : String := "CompProperties"
  /-- What the short names of component families end with. -/
  componentTail : String := "Comp"
  /-- Definitions are tagged by their full names. -/
  keepsNamespace : Bool := false
  /-- Abstract definition types are definitions, too. -/
  includesAbstract : Bool := false
  deriving DecidableEq, Inhabited, Repr

namespace Conventions

/-! ## §1 Names -/

/-- The name begins like a banned namespace. -/
def isBanned (c : Conventions) (fullName : String) : Bool :=
  c.bannedNamespaces.any fun lead => Text.beginsWith lead fullName

/-- The name is that of a closed type. -/
def isScalar (c : Conventions) (fullName : String) : Bool :=
  c.scalarTypes.contains fullName || c.scalarShortNames.contains (Text.afterLast '.' fullName)

/-- The conventions with definitions tagged by full names, or not. -/
def keepingNamespace (c : Conventions) (keep : Bool) : Conventions :=
  { c with keepsNamespace := keep }

/-! ## §2 Usability -/

/-- A name that no module can be read without. -/
inductive MissingName where
  | definitionBase
  | universalRoot
  deriving DecidableEq, Inhabited, Repr

/-- The missing name in words. -/
def MissingName.message : MissingName → String
  | .definitionBase => "definition_base is empty"
  | .universalRoot => "universal_root is empty"

/-- The first required name that is blank, if any. -/
def missingName? (c : Conventions) : Option MissingName :=
  if Text.isBlankText c.definitionBase then some .definitionBase
  else if Text.isBlankText c.universalRoot then some .universalRoot
  else none

/-! ## §3 Conventions as documents -/

/-- The keys of a document of conventions. -/
def keys : List String :=
  ["definition_base", "definition_registry_marker", "localization_handle_marker",
    "must_localize_marker", "universal_root", "banned_namespaces", "scalar_types",
    "scalar_short_names", "properties_prefix", "component_suffix", "keep_namespace_prefix",
    "include_abstract_definitions"]

/-- Conventions as a document. -/
def toJson (c : Conventions) : Json :=
  .obj (keys.zip
    [.str c.definitionBase, .str c.registryMarker, .str c.localizationHandleMarker,
      .str c.mustLocalizeMarker, .str c.universalRoot, Field.textsToJson c.bannedNamespaces,
      Field.textsToJson c.scalarTypes, Field.textsToJson c.scalarShortNames,
      .str c.propertiesLead, .str c.componentTail, .bool c.keepsNamespace,
      .bool c.includesAbstract])

open Document in
/-- Reads conventions; a missing key keeps the standard convention. -/
def read? {m : Type → Type} [Monad m] [MonadExceptOf Unit m] {ν : Type} [Document m ν] (v : ν) :
    m Conventions := do
  -- Whatever the document leaves out is as it is in the standard conventions.
  let standard : Conventions := {}
  match ← fields? keys v with
  | [definitionBase, registryMarker, localizationHandleMarker, mustLocalizeMarker,
      universalRoot, bannedNamespaces, scalarTypes, scalarShortNames, propertiesLead,
      componentTail, keepsNamespace, includesAbstract] => do
    return {
      definitionBase := ← defaulted standard.definitionBase text? definitionBase
      registryMarker := ← defaulted standard.registryMarker text? registryMarker
      localizationHandleMarker :=
        ← defaulted standard.localizationHandleMarker text? localizationHandleMarker
      mustLocalizeMarker := ← defaulted standard.mustLocalizeMarker text? mustLocalizeMarker
      universalRoot := ← defaulted standard.universalRoot text? universalRoot
      bannedNamespaces := ← defaulted standard.bannedNamespaces (listOf? text?) bannedNamespaces
      scalarTypes := ← defaulted standard.scalarTypes (listOf? text?) scalarTypes
      scalarShortNames := ← defaulted standard.scalarShortNames (listOf? text?) scalarShortNames
      propertiesLead := ← defaulted standard.propertiesLead text? propertiesLead
      componentTail := ← defaulted standard.componentTail text? componentTail
      keepsNamespace := ← defaulted standard.keepsNamespace flag? keepsNamespace
      includesAbstract := ← defaulted standard.includesAbstract flag? includesAbstract }
  | _ => throw ()

end Conventions

end SchemaGraph
