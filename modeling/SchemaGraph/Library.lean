import SchemaGraph.Library.Inventory
import SchemaGraph.Library.Settings
import SchemaGraph.Merge
import SchemaGraph.Store

/-!
# Libraries

A library is a base module with add-ons, merged into one cache in the order in which they were
loaded.  The definitions of the base module are tagged by short names, those of add-ons by full
names, so that modules do not get into each other's way.  A module is loaded once; one that could
not be read is noted in the inventory and may be loaded later.
-/

namespace SchemaGraph

variable {m : Type → Type} [Monad m] [FileSystem m]

/-- The merged cache of several modules. -/
structure Library where
  store : Store
  conventions : Conventions
  /-- Persisted caches are not used. -/
  force : Bool
  cache : Cache
  /-- The keys of the modules that are part of the library. -/
  loaded : List String
  inventory : Inventory
  deriving Inhabited

namespace Library

/-! ## §1 Modules -/

/-- The library of no module. -/
def create (store : Store) (conventions : Conventions) (force : Bool) : m Library :=
  return {
    store
    conventions
    force
    cache := .empty
    loaded := []
    inventory := .empty (← FileSystem.now) }

/-- What a module is known by: its canonical path, or the path itself where there is none. -/
def keyOf (p : Path) : m String := FileSystem.canonicalOrSelf p

/-- The module at a path is part of the library. -/
def contains (l : Library) (p : Path) : m Bool := return l.loaded.contains (← keyOf p)

/-- A module that is about to be merged. -/
structure Incoming where
  key : String
  path : Path
  cache : Cache
  outcome : Outcome
  /-- Its definitions are tagged by full names. -/
  namespacePrefix : Bool

/-- Merges a module and notes it in the inventory. -/
def absorb (l : Library) (i : Incoming) : m (MergeReport × Library) := do
  let fingerprint := (← (Fingerprint.ofFile i.path).run).toOption
  let entry : InventoryEntry :=
    { fingerprint
      outcome := i.outcome
      loadedAt := ← FileSystem.now
      namespacePrefix := i.namespacePrefix
      definitions := i.cache.definitions.length
      schemas := i.cache.schemas.length
      variants := i.cache.variants.length }
  let merged :=
    { l with
      cache := l.cache.merge .append i.cache
      -- A degraded module may be tried again, so it does not count as loaded.
      loaded := if i.outcome = .degraded then l.loaded else i.key :: l.loaded
      inventory := l.inventory.record i.key entry (← FileSystem.now) }
  return (l.cache.mergeReport .append i.cache, merged)

/-- Loads a module, unless it is part of the library. -/
def loadOne (l : Library) (p : Path) (namespacePrefix : Bool) :
    m (Option MergeReport × Library) := do
  let key ← keyOf p
  if l.loaded.contains key then return (none, l)
  let (cache, outcome) ← l.store.obtain p (l.conventions.keepingNamespace namespacePrefix) l.force
  let (report, l) ← l.absorb ⟨key, p, cache, outcome, namespacePrefix⟩
  return (some report, l)

/-- Loads the base module. -/
def loadBase (l : Library) (p : Path) : m (Option MergeReport × Library) := l.loadOne p false

/-- Loads an add-on. -/
def addModule (l : Library) (p : Path) : m (Option MergeReport × Library) := l.loadOne p true

/-! ## §2 Several add-ons -/

/-- The keyed paths that are not loaded, each key once. -/
def pending (l : Library) (keyed : List (String × Path)) : List (String × Path) :=
  newcomers (·.1) l.loaded keyed

/-- Merges modules in the given order. -/
def absorbAll (l : Library) : List Incoming → m (List MergeReport × Library)
  | [] => return ([], l)
  | i :: rest => do
    let (report, l) ← l.absorb i
    let (reports, l) ← l.absorbAll rest
    return (report :: reports, l)

/-- Obtains the caches of several add-ons first, and then merges them in the given order. -/
def addTogether (l : Library) (paths : List Path) : m (List MergeReport × Library) := do
  -- What is loaded is settled before any of the caches is merged.
  let keyed ← paths.mapM fun p => return (← keyOf p, p)
  let incoming ← (l.pending keyed).mapM fun (key, p) => do
    let (cache, outcome) ← l.store.obtain p (l.conventions.keepingNamespace true) l.force
    return ⟨key, p, cache, outcome, true⟩
  l.absorbAll incoming

/-! ## §3 Whole libraries -/

/-- The library of a base module. -/
def ofBase (p : Path) (store : Store) (conventions : Conventions) : m Library := do
  let l ← create store conventions false
  return (← l.loadBase p).2

/-- The library that settings describe. -/
def ofSettings (s : LibrarySettings) (force : Bool) : m Library := do
  let l ← create ⟨s.cacheDirectory⟩ s.conventions force
  let (_, l) ← l.loadBase s.baseModule
  return (← l.addTogether s.addons).2

/-! ## §4 Inventory files -/

/-- The name of the inventory file in the directory of a store. -/
def inventoryFile : String := "modules.json"

/-- Writes the inventory into the directory of the store and gives its path. -/
def saveInventory (l : Library) : Task m Path := do
  let p := Path.join l.store.directory inventoryFile
  Task.ofIo (FileSystem.writeWithDirectory p (Bytes.ofText l.inventory.toJson.pretty))
  return p

/-- Loads an inventory.  What cannot be read once it is there counts as malformed. -/
def loadInventory (p : Path) : Task m Inventory := do
  match ← FileSystem.read p with
  | .ok contents =>
    Task.require .json ((Json.parseBytes? contents).bind Inventory.read?)
  | .error .isADirectory => throw .json
  | .error e => throw (.io e)

end Library

end SchemaGraph
