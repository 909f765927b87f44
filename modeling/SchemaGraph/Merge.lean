import SchemaGraph.Merge.Plan

/-!
# Merging Caches

Merging absorbs an incoming cache into a base cache.  The arenas of the base are only appended
to, so its handles stay valid; the handles of the incoming cache are renamed by the plan.  The
two tables are united, and definitions are appended or, on request, replaced by tag.
-/

namespace SchemaGraph

/-! ## §1 Strategies and reports -/

/-- How incoming definitions meet definitions with the same tag. -/
inductive MergeStrategy where
  /-- Every incoming definition is appended. -/
  | append
  /-- The first definition with the tag is replaced in place; others are appended. -/
  | overwrite
  deriving DecidableEq, Inhabited, Repr

/-- What one merge did. -/
structure MergeReport where
  schemasAdded : Nat
  schemasDeduplicated : Nat
  variantsAdded : Nat
  variantsReused : Nat
  /-- Variants found by short name whose fields have another shape. -/
  variantCollisions : Nat
  definitionsAdded : Nat
  definitionsReplaced : Nat
  deriving DecidableEq, Inhabited, Repr

/-! ## §2 Definitions -/

/-- Puts a definition in the place of the first one with its tag, or at the end. -/
def putDefinition (d : Definition) : List Definition → List Definition
  | [] => [d]
  | e :: es => if e.tagName = d.tagName then d :: es else e :: putDefinition d es

/-- The definitions of a merge. -/
def mergeDefinitions (strategy : MergeStrategy) (base incoming : List Definition) :
    List Definition :=
  match strategy with
  | .append => base ++ incoming
  | .overwrite => incoming.foldl (fun ds d => putDefinition d ds) base

/-! ## §3 Tables -/

/-- The catalog with one more entry: a key it lacks is taken as it is, for a key it has both
lists are united without repetition. -/
def unionEntry (catalog : SortedMap (List String)) (entry : String × List String) :
    SortedMap (List String) :=
  match catalog.get? entry.1 with
  | none => catalog.insert entry.1 entry.2
  | some values => catalog.insert entry.1 (distinct (values ++ entry.2))

/-- The union of two catalogs. -/
def mergeCatalogs (base incoming : SortedMap (List String)) : SortedMap (List String) :=
  incoming.entries.foldl unionEntry base

/-- The union of two cast tables; the incoming one wins. -/
def mergeCasts (base incoming : SortedMap String) : SortedMap String :=
  incoming.entries.foldl (fun m e => m.insert e.1 e.2) base

/-! ## §4 Merging -/

namespace Cache

/-- The base cache with the incoming one absorbed. -/
def merge (strategy : MergeStrategy) (base incoming : Cache) : Cache :=
  let plan := MergePlan.of base incoming
  { definitions :=
      mergeDefinitions strategy base.definitions
        (incoming.definitions.map (Definition.relabel plan.schemaName plan.variantName))
    catalog := mergeCatalogs base.catalog incoming.catalog
    schemas :=
      base.schemas ++ plan.addedSchemas.map (Schema.relabel plan.schemaName plan.variantName)
    variants :=
      base.variants ++ plan.addedVariants.map (Variant.relabel plan.schemaName plan.variantName)
    castTable := mergeCasts base.castTable incoming.castTable }

/-- The incoming variant has the short name of a base variant, but other fields. -/
def collides (base : List Variant) (plan : MergePlan) (v : Variant) : Bool :=
  match base.find? (fun b => b.fullName = v.fullName) with
  | some b => Field.shapes id b.fields ≠ Field.shapes plan.variantName v.fields
  | none => false

/-- The report of a merge. -/
def mergeReport (strategy : MergeStrategy) (base incoming : Cache) : MergeReport :=
  let plan := MergePlan.of base incoming
  let reused := incoming.variants.filter fun v =>
    base.variants.any (fun b => b.fullName = v.fullName)
  let definitions := mergeDefinitions strategy base.definitions
    (incoming.definitions.map (Definition.relabel plan.schemaName plan.variantName))
  let definitionsAdded := definitions.length - base.definitions.length
  { schemasAdded := plan.addedSchemas.length
    schemasDeduplicated := incoming.schemas.length - plan.addedSchemas.length
    variantsAdded := plan.addedVariants.length
    variantsReused := reused.length
    variantCollisions := (reused.filter (collides base.variants plan)).length
    definitionsAdded
    definitionsReplaced := incoming.definitions.length - definitionsAdded }

/-- The first cache followed by the second. -/
def concat (base incoming : Cache) : Cache := base.merge .append incoming

end Cache

end SchemaGraph
