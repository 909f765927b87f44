import SchemaGraph.Extraction.Discovery
import SchemaGraph.Outline

/-!
# Extraction

One pass over a module makes a cache of it: the catalog of named instances, the discovery of the
reachable types, a variant for every member of a component family and for every property type, a
definition for every definition type, and the cast table.

Failures inside a variant are absorbed; a failure inside a schema or a definition ends the pass.
-/

namespace SchemaGraph

namespace Pass

/-! ## §1 Component families -/

/-- An abstract class right below the root whose short name marks it as a component. -/
def isComponentFamily (p : Pass) (t : TypeInfo) : Bool :=
  t.isAbstract && !t.isInterface
    && t.base.all (fun base => base = p.conventions.universalRoot)
    && Text.endsWith p.conventions.componentTail t.name

/-- The members of all component families, own or imported families alike. -/
def familyMembers (p : Pass) : List String :=
  ((p.module.types ++ p.module.imports).filter p.isComponentFamily).flatMap fun t =>
    p.module.allSubtypes t.fullName

/-- The pass with the members of component families marked as such. -/
def marked (p : Pass) : Pass := { p with componentMembers := p.familyMembers }

/-- Requests a variant for every concrete member of a component family. -/
def requestComponents (p : Pass) : Run Unit := do
  for fullName in p.familyMembers.filter p.isVariantCandidate do
    discard (p.variantOf fullName)

/-- Requests a variant for every property type. -/
def requestProperties (p : Pass) : Run Unit := do
  for t in p.module.types do
    if p.isPropertiesType t && !t.isInterface && !p.isBanned t.fullName then
      discard (p.variantOf t.fullName)

/-! ## §2 Named instances -/

/-- A type that declares named instances. -/
def isRegistry (p : Pass) (t : TypeInfo) : Bool :=
  t.hasAttribute p.conventions.registryMarker || t.base = some p.conventions.registryMarker

/-- The type is the definition base or derives from it. -/
def isDefinitionType (p : Pass) (fullName : String) : Bool :=
  p.module.isAssignableTo fullName p.conventions.definitionBase

/-- The definition type and the name of each instance that a type declares. -/
def instancesOf (p : Pass) (t : TypeInfo) : List (String × String) :=
  t.members.filterMap fun m =>
    if m.isStatic && m.kind = .field then
      match m.type.name? with
      | some typeName => if p.isDefinitionType typeName then some (typeName, m.name) else none
      | none => none
    else none

/-- The named instances of each definition type, in the order of their declaration. -/
def catalog (p : Pass) : SortedMap (List String) :=
  ((p.module.types.filter p.isRegistry).flatMap p.instancesOf).foldl
    (fun catalog (typeName, name) =>
      catalog.insert typeName ((catalog.get? typeName).getD [] ++ [name]))
    .empty

/-! ## §3 Definitions -/

/-- A class that is not banned, and concrete unless abstract types are definitions, too. -/
def isDefinable (p : Pass) (t : TypeInfo) : Bool :=
  !t.isInterface && !p.isBanned t.fullName && (!t.isAbstract || p.conventions.includesAbstract)

/-- The definition of a type with its flattened fields. -/
def definitionOf (p : Pass) (t : TypeInfo) (fields : List Field) : Definition where
  tagName := if p.conventions.keepsNamespace then t.fullName else t.name
  name := t.name
  parentName := (t.base.map (Text.afterLast '.')).getD ""
  isAbstract := t.isAbstract
  ignoreValidationErrors := false
  fullName := t.fullName
  fields

/-- The types below the definition base that may have a definition of their own. -/
def definitionCandidates (p : Pass) : List TypeInfo :=
  ((p.module.allSubtypes p.conventions.definitionBase).filterMap p.module.lookup?).filter
    p.isDefinable

/-- The definition of a type, if its record was noted. -/
def definition? (p : Pass) (t : TypeInfo) : Run (Option Definition) := do
  if (p.noted? (← get) t.fullName).isNone then return none
  return some (p.definitionOf t (← p.flatten t.fullName))

/-- The definitions of the module in the order of their tags. -/
def definitions (p : Pass) : Run (List Definition) := do
  let answers ← p.definitionCandidates.mapM p.definition?
  return (answers.filterMap id).mergeSort (fun a b => a.tagName ≤ b.tagName)

/-! ## §4 Wrappers -/

/-- A type that may wrap a definition. -/
def isWrapperCandidate (p : Pass) (t : TypeInfo) : Bool :=
  !t.isEnum && !t.isInterface && !p.isBanned t.fullName && !p.conventions.isScalar t.fullName

/-- The definition type that a record wraps, if exactly one member refers to a definition. -/
def wrapped? (p : Pass) (record : TypeRecord) : Option String :=
  match (record.members.filterMap (·.type.name?)).filter p.isDefinitionType with
  | [only] => some only
  | _ => none

/-- The wrapper types of the module with the definition type of each. -/
def castTable (p : Pass) : SortedMap String :=
  SortedMap.ofList <| (p.module.types.filter p.isWrapperCandidate).filterMap fun t =>
    match p.module.introspect p.conventions t.fullName with
    | .ok record => (p.wrapped? record).map (t.fullName, ·)
    | .error _ => none

/-! ## §5 The pass -/

/-- Extracts the module.  Without a declared definition base there is nothing to extract. -/
def extract (p : Pass) : Run Cache := do
  if (p.module.lookup? p.conventions.definitionBase).isNone then return .empty
  -- Whether a type belongs to a family has to be known before its variant is requested.
  let p := p.marked
  discard p.discover
  p.requestComponents
  p.requestProperties
  let definitions ← p.definitions
  let (registry, _) ← get
  return {
    definitions
    catalog := p.catalog
    schemas := registry.schemas
    variants := registry.variants
    castTable := p.castTable }

/-- The state in which a pass starts. -/
def start : State := ({}, [])

/-- The outline of a type that is described in a pass of its own. -/
def outline? (p : Pass) (typeName : String) (maxDepth : Nat) : Option String :=
  let (fields, (registry, _)) := p.describe typeName start
  (fields.toOption.getD none).map fun fields =>
    renderOutline ⟨registry.schemas, registry.variants⟩ typeName fields maxDepth

end Pass

/-- The cache of a module, extracted in a pass of its own. -/
def Module.extract (m : Module) (c : Conventions) : Except IntrospectionError Cache :=
  (Pass.extract { module := m, conventions := c } Pass.start).1

end SchemaGraph
