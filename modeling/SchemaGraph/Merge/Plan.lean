import SchemaGraph.Interning
import SchemaGraph.Merge.Shape

/-!
# Merge Plans

Before two caches are merged it is settled which entry of the merged arenas stands for each
incoming entry.  Variants are recognized by short name alone, so their handles are settled first;
schemas are recognized by name and shape, where shapes already speak of the merged variants.
-/

namespace SchemaGraph

/-! ## §1 Handle maps -/

/-- The new handles of the entries of an arena, by position. -/
abbrev HandleMap := List Handle

/-- The new handle of a handle.  Negative handles and handles the map does not cover stay as
they are: a cache may refer to entries that it does not have. -/
def HandleMap.apply (m : HandleMap) (h : Handle) : Handle :=
  if h < 0 then h else (m[h.toNat]?).getD h

/-- Where the entries of an incoming arena are found in the merged one: the first merged entry
with the same key. -/
def placement {κ : Type} [DecidableEq κ] (merged incoming : List κ) : HandleMap :=
  incoming.map fun k => (merged.idxOf k : Int)

/-! ## §2 Plans -/

/-- What a merge adds to the arenas of a base cache, and where incoming entries end up.  The
added entries still carry their own handles. -/
structure MergePlan where
  addedVariants : List Variant
  variantHandles : HandleMap
  addedSchemas : List Schema
  schemaHandles : HandleMap

/-- The plan for merging `incoming` into `base`. -/
def MergePlan.of (base incoming : Cache) : MergePlan :=
  let baseNames := base.variants.map (·.fullName)
  let addedVariants := newcomers (·.fullName) baseNames incoming.variants
  let variantHandles :=
    placement (baseNames ++ addedVariants.map (·.fullName)) (incoming.variants.map (·.fullName))
  -- The base speaks of its own variants, the incoming cache of variants that are renamed.
  let shape := Schema.shape variantHandles.apply
  let baseShapes := base.schemas.map (Schema.shape id)
  let addedSchemas := newcomers shape baseShapes incoming.schemas
  let schemaHandles :=
    placement (baseShapes ++ addedSchemas.map shape) (incoming.schemas.map shape)
  { addedVariants, variantHandles, addedSchemas, schemaHandles }

namespace MergePlan

/-- The new handle of an incoming schema handle. -/
def schemaName (p : MergePlan) : Handle → Handle := p.schemaHandles.apply

/-- The new handle of an incoming variant handle. -/
def variantName (p : MergePlan) : Handle → Handle := p.variantHandles.apply

end MergePlan

end SchemaGraph
