import SchemaGraph.Extraction.Classification

/-!
# Discovery

The types a module is about are those reachable from its definitions and its property types
through the declared types of their members.  Discovery visits them breadth first and introspects
each; it creates no schemas.
-/

namespace SchemaGraph.Pass

/-! ## §1 Seeds -/

/-- A type whose short name marks it as the properties of a component. -/
def isPropertiesType (p : Pass) (t : TypeInfo) : Bool :=
  Text.beginsWith p.conventions.propertiesLead t.name

/-- Where discovery starts: the definition types, then the property types. -/
def seeds (p : Pass) : List String :=
  let definitions := p.module.allSubtypes p.conventions.definitionBase
  definitions
    ++ newcomers id definitions ((p.module.types.filter p.isPropertiesType).map (·.fullName))

/-! ## §2 Reachable types -/

/-- The declared types that the members of a type lead to. -/
def successors (p : Pass) (fullName : String) : List String :=
  match p.module.introspect p.conventions fullName with
  | .error _ => []
  | .ok record =>
    (record.referencedTypes.filterMap (·.unwrapList.name?)).filter fun next =>
      !p.conventions.isScalar next && !p.isBanned next && (p.module.lookup? next).isSome

/-- The types reachable from a queue that are not visited yet, in the order of visits. -/
def visitOrder (p : Pass) : (fuel : Nat) → (visited queue : List String) → List String
  | 0, _, _ => []
  | _ + 1, _, [] => []
  | fuel + 1, visited, name :: queue =>
    if p.isBanned name || visited.contains name then p.visitOrder fuel visited queue
    else
      let visited := name :: visited
      let next := (p.successors name).filter (!visited.contains ·)
      name :: p.visitOrder fuel visited (queue ++ next)

/-- The number of members of all declarations. -/
def memberCount (p : Pass) : Nat :=
  (p.module.types ++ p.module.imports).foldl (fun n t => n + t.members.length) 0

/-- The types reachable from the seeds.  Each visit takes one name from the queue, and a type
adds at most as many names as it has members. -/
def reachable (p : Pass) : List String :=
  p.visitOrder (p.seeds.length + p.memberCount + 1) [] p.seeds

/-- Visits the reachable types and introspects each. -/
def discover (p : Pass) : Run (List String) := do
  for fullName in p.reachable do
    try discard (p.introspect fullName) catch _ => pure ()
  return p.reachable

end SchemaGraph.Pass
