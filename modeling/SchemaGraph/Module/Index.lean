import SchemaGraph.Interning
import SchemaGraph.Module.Declaration
import SchemaGraph.SortedMap

/-!
# Modules

A module answers questions about its declared types: which declaration a name stands for, which
of its own types derive from a type, and whether one type can stand in for another.  Imported
types can be looked up and walked as base types, but never count as subtypes.

The subtypes of all types are found in one go.  The types that have subtypes are expanded one after
the other, and what has been found for one of them is looked up when another one needs it.
-/

namespace SchemaGraph

/-- The types that some of the types have as their base, each once. -/
def TypeInfo.bases (types : List TypeInfo) : List String := distinct (types.filterMap (·.base))

/-- The order in which a table without an order of its own lists its keys. -/
structure KeyOrder where
  arrange : List String → List String
  perm (keys : List String) : (arrange keys).Perm keys

/-- Keys are listed as they come. -/
def KeyOrder.given : KeyOrder := ⟨id, fun _ => .refl _⟩

/-- A module with its own and its imported types. -/
structure Module where
  path : String
  name : String
  types : List TypeInfo
  imports : List TypeInfo
  /-- The types that have subtypes, in the order in which they are expanded. -/
  order : List String
  ordered : order.Perm (TypeInfo.bases types)
  deriving DecidableEq

namespace Module

/-! ## §1 Names -/

/-- The module of a manifest, indexed in some order: in the given one, unless another is named. -/
def ofManifest (path : String) (m : ModuleManifest) (keys : KeyOrder := .given) : Module where
  path
  name := m.name
  types := m.types.map TypeInfo.normalized
  imports := m.imports.map TypeInfo.normalized
  order := keys.arrange (TypeInfo.bases (m.types.map TypeInfo.normalized))
  ordered := keys.perm _

instance : Inhabited Module := ⟨ofManifest "" {}⟩

/-- The last declaration of a name in a list. -/
def lastNamed? (types : List TypeInfo) (fullName : String) : Option TypeInfo :=
  types.reverse.find? (fun t => t.fullName = fullName)

/-- The declaration of a name: an own type before an imported one, of several the last. -/
def lookup? (m : Module) (fullName : String) : Option TypeInfo :=
  match lastNamed? m.types fullName with
  | some t => some t
  | none => lastNamed? m.imports fullName

/-- The module itself declares the type. -/
def isOwn (m : Module) (fullName : String) : Bool :=
  m.types.any (fun t => t.fullName = fullName)

/-- The base type of the declaration of a name. -/
def base? (m : Module) (fullName : String) : Option String :=
  (m.lookup? fullName).bind (·.base)

/-- The number of declarations; no chain of distinct declared names is longer. -/
def declarationCount (m : Module) : Nat := m.types.length + m.imports.length

/-! ## §2 Subtypes -/

/-- The own types with a given base, in the order of their declaration. -/
def subtypesOf (m : Module) (base : String) : List String :=
  (m.types.filter (fun t => t.base = some base)).map (·.fullName)

/-- Some own type has the given base. -/
def hasSubtypes (m : Module) (base : String) : Bool :=
  m.types.any (fun t => t.base = some base)

/-- What is found for several types, one after the other, with a table that is handed on. -/
def findEach (find : SortedMap (List String) → String → List String × SortedMap (List String)) :
    SortedMap (List String) → List String → List String × SortedMap (List String)
  | table, [] => ([], table)
  | table, name :: names =>
    let first := find table name
    let rest := findEach find first.2 names
    (first.1 ++ rest.1, rest.2)

/-- The subtypes of a type, and the table after they were found: the direct ones, then those of each
of them in turn.  What the table knows is not looked for again, and a type that is met while it is
being expanded counts as one without subtypes; `visiting` holds the types that are. -/
def fill (m : Module) : (fuel : Nat) → (visiting : List String) →
    SortedMap (List String) → String → List String × SortedMap (List String)
  | 0, _, table, _ => ([], table)
  | fuel + 1, visiting, table, name =>
    match table.get? name with
    | some listed => (listed, table)
    | none =>
      if name ∈ visiting then ([], table)
      else
        let children := m.subtypesOf name
        let below := findEach (m.fill fuel (name :: visiting)) table children
        (children ++ below.1, below.2.insert name (children ++ below.1))

/-- The types that some own type has as its base, each once. -/
def indexedBases (m : Module) : List String := TypeInfo.bases m.types

/-- The table that is filled by expanding types in the given order. -/
def subtypeTable (m : Module) (order : List String) : SortedMap (List String) :=
  (findEach (m.fill (m.indexedBases.length + 1) []) .empty order).2

/-- What a table lists for a type. -/
def listedIn (table : SortedMap (List String)) (name : String) : List String :=
  (table.get? name).getD []

/-- All subtypes of a type among the own types: the direct ones first. -/
def allSubtypes (m : Module) (name : String) : List String :=
  listedIn (m.subtypeTable m.order) name

/-! ## §3 Base types -/

/-- Following base types from `name` for at most `steps` steps meets `ancestor`. -/
def reaches (m : Module) : (steps : Nat) → (name ancestor : String) → Bool
  | 0, name, ancestor => name = ancestor
  | steps + 1, name, ancestor =>
    if name = ancestor then true
    else
      match m.base? name with
      | some base => m.reaches steps base ancestor
      | none => false

/-- The type is `ancestor` or derives from it. -/
def isAssignableTo (m : Module) (name ancestor : String) : Bool :=
  m.reaches m.declarationCount name ancestor

/-- The declarations met from `name` upwards, the type itself first: up to the root, to the
first undeclared base or to the first repeated name. -/
def chainFrom (m : Module) (root : String) :
    (fuel : Nat) → (path : List String) → String → List TypeInfo
  | 0, _, _ => []
  | fuel + 1, path, name =>
    if name = root ∨ name ∈ path then []
    else
      match m.lookup? name with
      | none => []
      | some t =>
        match t.base with
        | none => [t]
        | some base => t :: m.chainFrom root fuel (name :: path) base

/-- The base chain of a type below the root. -/
def baseChain (m : Module) (root name : String) : List TypeInfo :=
  m.chainFrom root (m.declarationCount + 1) [] name

end Module

end SchemaGraph
