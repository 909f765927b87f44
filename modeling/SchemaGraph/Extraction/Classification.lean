import SchemaGraph.Extraction.Registry

/-!
# Classification

Every member of a type becomes a field.  Its declared type decides the kind of the field, and what
lies below is requested from the registry: the schema of a nested type or item type, and the
variants of a polymorphic item type.

Requests resolve fields, and fields make requests.  The knot is tied by a bound on how deep
requests may nest; it is never reached, because every request that resolves fields has created an
entry of its own.
-/

namespace SchemaGraph

/-- What one pass of extraction reads: a module, the conventions, and the types that count as
members of component families. -/
structure Pass where
  module : Module
  conventions : Conventions
  componentMembers : List String := []

namespace Pass

/-! ## §1 Types of the module -/

/-- A type that is left out of the type graph. -/
def isBanned (p : Pass) (fullName : String) : Bool :=
  p.conventions.isBanned fullName ||
    (p.module.lookup? fullName).any fun t =>
      t.genericParameter || t.specialName || Text.beginsWith "<" t.name

/-- Scalars, banned types, enumerations and undeclared types need no schema. -/
def needsSchema (p : Pass) (fullName : String) : Bool :=
  !p.conventions.isScalar fullName && !p.isBanned fullName
    && (p.module.lookup? fullName).any (fun t => !t.isEnum)

/-- The items of a list of this type choose a variant. -/
def isPolymorphic (p : Pass) (fullName : String) : Bool :=
  p.module.hasSubtypes fullName
    || (p.module.lookup? fullName).any (fun t => t.isAbstract || t.isInterface)

/-- A declared, concrete type that is not banned. -/
def isVariantCandidate (p : Pass) (fullName : String) : Bool :=
  (p.module.lookup? fullName).any TypeInfo.isConcrete && !p.isBanned fullName

/-- The types that the items of a polymorphic list choose from. -/
def variantCandidates (p : Pass) (fullName : String) : List String :=
  (p.module.allSubtypes fullName).filter p.isVariantCandidate

/-! ## §2 Introspection -/

/-- What a pass has done: the registry, and the names it has introspected, in order. -/
abbrev State := Registry × List String

/-- A computation of a pass. -/
abbrev Run := Build (List String)

/-- Introspects a type and notes its name. -/
def introspect (p : Pass) (fullName : String) : Run TypeRecord := do
  modify fun (r, names) => (r, if fullName ∈ names then names else names ++ [fullName])
  match p.module.introspect p.conventions fullName with
  | .ok record => return record
  | .error e => throw e

/-- The record of a type that was introspected before. -/
def noted? (p : Pass) (s : State) (fullName : String) : Option TypeRecord :=
  if fullName ∈ s.2 then (p.module.introspect p.conventions fullName).toOption else none

/-! ## §3 Fields -/

/-- What a field may request from the registry. -/
inductive Request where
  | schema (fullName : String)
  | variant (fullName : String)
  deriving DecidableEq, Inhabited, Repr

/-- The field of a member that is a sequence. -/
def classifyList (p : Pass) (ask : Request → Run Handle) (name : String) (item : TypeRef) :
    Run Field := do
  let display := (TypeRef.list item).display
  match item with
  | .list _ => return .list name display noHandle
  | .named itemType =>
    if p.isPolymorphic itemType then
      let variantIds ← (p.variantCandidates itemType).mapM fun t => ask (.variant t)
      let schemaId ← if p.conventions.isScalar itemType then pure noHandle
        else ask (.schema itemType)
      return .polymorphicList name display schemaId variantIds
    else
      let schemaId ← if p.conventions.isScalar itemType then pure noHandle
        else ask (.schema itemType)
      return .list name display schemaId

/-- The field of a member of a named type. -/
def classifyNamed (p : Pass) (ask : Request → Run Handle) (name typeName : String) :
    Run Field := do
  if p.conventions.isScalar typeName then return .scalar name typeName
  match p.module.lookup? typeName with
  | some t =>
    if t.isEnum then return .enumerated name t.name t.enumValues
    else return .nested name typeName (← ask (.schema typeName))
  | none =>
    if p.isBanned typeName then return .nested name typeName (← ask (.schema typeName))
    else return .external name typeName

/-- The field of a member. -/
def classifyWith (p : Pass) (ask : Request → Run Handle) (m : Member) : Run Field := do
  let field ← match m.type with
    | .list item => p.classifyList ask m.name item
    | .named typeName => p.classifyNamed ask m.name typeName
  return field.withLocalization (m.hasAttribute p.conventions.localizationHandleMarker)
    (m.hasAttribute p.conventions.mustLocalizeMarker)

/-- The fields of the levels of a base chain.  A member of a name that is already `taken` is
shadowed. -/
def flattenLevels (p : Pass) (ask : Request → Run Handle) :
    (taken : List String) → List TypeInfo → Run (List Field)
  | _, [] => return []
  | taken, t :: levels => do
    let record ← p.introspect t.fullName
    let members := newcomers (·.name) taken record.members
    let fields ← members.mapM (p.classifyWith ask)
    return fields ++ (← p.flattenLevels ask (members.map (·.name) ++ taken) levels)

/-- The fields of a type with those it inherits, its own first. -/
def flattenWith (p : Pass) (ask : Request → Run Handle) (fullName : String) : Run (List Field) :=
  p.flattenLevels ask [] (p.module.baseChain p.conventions.universalRoot fullName)

/-! ## §4 Requests -/

/-- Makes a request whose resolvers nest at most `depth` deep. -/
def request (p : Pass) : (depth : Nat) → Request → Run Handle
  | 0, .schema fullName => throw ⟨fullName, "requests nest too deep"⟩
  | 0, .variant fullName => throw ⟨fullName, "requests nest too deep"⟩
  | depth + 1, .schema fullName =>
    Registry.requestSchema p.needsSchema fullName (p.flattenWith (p.request depth) fullName)
  | depth + 1, .variant fullName =>
    match p.module.lookup? fullName with
    | none => return noHandle
    | some t =>
      Registry.requestVariant fullName t.name (p.componentMembers.contains fullName)
        (p.flattenWith (p.request depth) fullName)

/-- More than resolvers can nest: each of them has taken a schema or a variant of its own. -/
def depthBound (p : Pass) : Nat := 2 * p.module.declarationCount + 1

/-- Requests the schema of a type. -/
def schemaOf (p : Pass) (fullName : String) : Run Handle :=
  p.request p.depthBound (.schema fullName)

/-- Requests the variant of a type; no handle for an undeclared one. -/
def variantOf (p : Pass) (fullName : String) : Run Handle :=
  p.request p.depthBound (.variant fullName)

/-- The field of a member. -/
def classify (p : Pass) (m : Member) : Run Field := p.classifyWith (p.request p.depthBound) m

/-- The fields of a type with those it inherits. -/
def flatten (p : Pass) (fullName : String) : Run (List Field) :=
  p.flattenWith (p.request p.depthBound) fullName

/-- The fields of a declared type. -/
def describe (p : Pass) (fullName : String) : Run (Option (List Field)) := do
  match p.module.lookup? fullName with
  | none => return none
  | some _ => try return some (← p.flatten fullName) catch _ => return none

end Pass

end SchemaGraph
