import SchemaGraph.Extraction

/-!
# Relocation

A module knows the path it was loaded from, but nothing that is extracted depends on it: the same
declarations at another path make the same cache.  Every function of a pass is shown not to look at
the path, in the order in which they are built on each other.
-/

namespace SchemaGraph

namespace Module

/-! ## §1 Modules -/

/-- The module with another path. -/
def relocated (m : Module) (path : String) : Module := { m with path }

variable (m : Module) (path : String)

@[simp] theorem types_relocated : (m.relocated path).types = m.types := rfl

@[simp] theorem imports_relocated : (m.relocated path).imports = m.imports := rfl

@[simp] theorem lookup?_relocated : (m.relocated path).lookup? = m.lookup? := rfl

@[simp] theorem introspect_relocated : (m.relocated path).introspect = m.introspect := rfl

@[simp] theorem hasSubtypes_relocated : (m.relocated path).hasSubtypes = m.hasSubtypes := rfl

@[simp] theorem declarationCount_relocated :
    (m.relocated path).declarationCount = m.declarationCount := rfl

@[simp] theorem fill_relocated (fuel : Nat) (visiting : List String) :
    (m.relocated path).fill fuel visiting = m.fill fuel visiting := by
  induction fuel generalizing visiting with
  | zero => rfl
  | succ fuel ih =>
    funext table name
    simp only [fill, ih]
    rfl

@[simp] theorem allSubtypes_relocated : (m.relocated path).allSubtypes = m.allSubtypes := by
  funext name
  simp only [allSubtypes, subtypeTable, fill_relocated]
  rfl

@[simp] theorem chainFrom_relocated (root : String) (fuel : Nat) (chain : List String)
    (name : String) :
    (m.relocated path).chainFrom root fuel chain name = m.chainFrom root fuel chain name := by
  induction fuel generalizing chain name with
  | zero => rfl
  | succ fuel ih => simp only [chainFrom, ih, lookup?_relocated]

@[simp] theorem baseChain_relocated : (m.relocated path).baseChain = m.baseChain := by
  funext root name
  exact chainFrom_relocated m path root _ _ _

@[simp] theorem reaches_relocated (steps : Nat) (name ancestor : String) :
    (m.relocated path).reaches steps name ancestor = m.reaches steps name ancestor := by
  induction steps generalizing name with
  | zero => rfl
  | succ steps ih =>
    simp only [reaches, ih]
    rfl

@[simp] theorem isAssignableTo_relocated :
    (m.relocated path).isAssignableTo = m.isAssignableTo := by
  funext name ancestor
  exact reaches_relocated m path _ _ _

end Module

namespace Pass

/-! ## §2 Passes -/

/-- The pass over the module at another path. -/
def relocated (p : Pass) (path : String) : Pass := { p with module := p.module.relocated path }

variable (p : Pass) (path : String)

@[simp] theorem module_relocated : (p.relocated path).module = p.module.relocated path := rfl

@[simp] theorem conventions_relocated : (p.relocated path).conventions = p.conventions := rfl

@[simp] theorem isBanned_relocated : (p.relocated path).isBanned = p.isBanned := rfl

@[simp] theorem needsSchema_relocated : (p.relocated path).needsSchema = p.needsSchema := rfl

@[simp] theorem isPolymorphic_relocated :
    (p.relocated path).isPolymorphic = p.isPolymorphic := rfl

@[simp] theorem isVariantCandidate_relocated :
    (p.relocated path).isVariantCandidate = p.isVariantCandidate := rfl

@[simp] theorem variantCandidates_relocated :
    (p.relocated path).variantCandidates = p.variantCandidates := by
  funext name
  simp [variantCandidates]

@[simp] theorem introspect_relocated : (p.relocated path).introspect = p.introspect := rfl

@[simp] theorem classifyWith_relocated : (p.relocated path).classifyWith = p.classifyWith := by
  funext ask m
  simp only [classifyWith, classifyList, classifyNamed, isPolymorphic_relocated,
    variantCandidates_relocated, conventions_relocated, isBanned_relocated, module_relocated,
    Module.lookup?_relocated]
  rfl

@[simp] theorem flattenLevels_relocated (ask : Request → Run Handle) (taken : List String)
    (levels : List TypeInfo) :
    (p.relocated path).flattenLevels ask taken levels = p.flattenLevels ask taken levels := by
  induction levels generalizing taken with
  | nil => rfl
  | cons t levels ih =>
    simp only [flattenLevels, ih, classifyWith_relocated, introspect_relocated]

@[simp] theorem flattenWith_relocated : (p.relocated path).flattenWith = p.flattenWith := by
  funext ask name
  simp [flattenWith]

@[simp] theorem request_relocated (depth : Nat) :
    (p.relocated path).request depth = p.request depth := by
  induction depth with
  | zero =>
    funext x
    cases x <;> rfl
  | succ depth ih =>
    -- Requests read the module through functions that do not read its path.
    funext x
    cases x with
    | schema fullName => simp [request, ih]
    | variant fullName =>
      simp only [request, ih, flattenWith_relocated, module_relocated, Module.lookup?_relocated]
      rfl

@[simp] theorem depthBound_relocated : (p.relocated path).depthBound = p.depthBound := rfl

@[simp] theorem variantOf_relocated : (p.relocated path).variantOf = p.variantOf := by
  funext name
  simp [variantOf]

@[simp] theorem flatten_relocated : (p.relocated path).flatten = p.flatten := by
  funext name
  simp [flatten]

/-! ## §3 Discovery -/

@[simp] theorem seeds_relocated : (p.relocated path).seeds = p.seeds := by
  simp only [seeds, module_relocated, Module.allSubtypes_relocated]
  rfl

@[simp] theorem successors_relocated : (p.relocated path).successors = p.successors := rfl

@[simp] theorem visitOrder_relocated (fuel : Nat) (visited queue : List String) :
    (p.relocated path).visitOrder fuel visited queue = p.visitOrder fuel visited queue := by
  induction fuel generalizing visited queue with
  | zero => rfl
  | succ fuel ih =>
    cases queue with
    | nil => rfl
    | cons name queue =>
      simp only [visitOrder, ih, isBanned_relocated, successors_relocated]

@[simp] theorem reachable_relocated : (p.relocated path).reachable = p.reachable := by
  simp only [reachable, visitOrder_relocated, seeds_relocated]
  rfl

@[simp] theorem discover_relocated : (p.relocated path).discover = p.discover := by
  simp only [discover, reachable_relocated, introspect_relocated]

/-! ## §4 The cache -/

@[simp] theorem familyMembers_relocated :
    (p.relocated path).familyMembers = p.familyMembers := by
  simp only [familyMembers, module_relocated, Module.allSubtypes_relocated]
  rfl

theorem marked_relocated : (p.relocated path).marked = p.marked.relocated path := by
  simp only [marked, familyMembers_relocated]
  rfl

@[simp] theorem requestComponents_relocated :
    (p.relocated path).requestComponents = p.requestComponents := by
  simp only [requestComponents, familyMembers_relocated, isVariantCandidate_relocated,
    variantOf_relocated]

@[simp] theorem requestProperties_relocated :
    (p.relocated path).requestProperties = p.requestProperties := by
  simp only [requestProperties, variantOf_relocated]
  rfl

@[simp] theorem isDefinitionType_relocated :
    (p.relocated path).isDefinitionType = p.isDefinitionType := by
  funext name
  simp [isDefinitionType]

@[simp] theorem catalog_relocated : (p.relocated path).catalog = p.catalog := by
  have hinstances : (p.relocated path).instancesOf = p.instancesOf := by
    funext t
    simp only [instancesOf, isDefinitionType_relocated]
  simp only [catalog, hinstances]
  rfl

@[simp] theorem definitionCandidates_relocated :
    (p.relocated path).definitionCandidates = p.definitionCandidates := by
  simp only [definitionCandidates, module_relocated, Module.allSubtypes_relocated]
  rfl

@[simp] theorem definition?_relocated : (p.relocated path).definition? = p.definition? := by
  funext t
  simp only [definition?, flatten_relocated]
  rfl

@[simp] theorem definitions_relocated : (p.relocated path).definitions = p.definitions := by
  simp only [definitions, definitionCandidates_relocated, definition?_relocated]

@[simp] theorem castTable_relocated : (p.relocated path).castTable = p.castTable := by
  have hwrapped : (p.relocated path).wrapped? = p.wrapped? := by
    funext record
    simp only [wrapped?, isDefinitionType_relocated]
  simp only [castTable, hwrapped]
  rfl

/-- **Extraction does not look at the path** of the module. -/
theorem extract_relocated : (p.relocated path).extract = p.extract := by
  simp only [extract, marked_relocated, discover_relocated, requestComponents_relocated,
    requestProperties_relocated, definitions_relocated, catalog_relocated, castTable_relocated]
  rfl

end Pass

/-- The cache of a manifest does not depend on where it was found. -/
theorem Module.extract_ofManifest (path path' : String) (manifest : ModuleManifest)
    (c : Conventions) :
    (ofManifest path manifest).extract c = (ofManifest path' manifest).extract c := by
  let p : Pass := { module := ofManifest path' manifest, conventions := c }
  have hrelocated : (p.relocated path).extract = p.extract := p.extract_relocated path
  exact congrArg (fun run => (run Pass.start).1) hrelocated

end SchemaGraph
