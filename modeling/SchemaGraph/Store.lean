import SchemaGraph.Store.Loading
import SchemaGraph.Store.Persisted
import SchemaGraph.Validation

/-!
# The Store

A directory of persisted caches, one for each module.  A persisted cache is used only if it was
made from the module as it is now, by the same conventions and in the current layout, and if it is
sound; otherwise the module is extracted again.  Nothing that is wrong with the directory keeps a
module from being extracted.
-/

namespace SchemaGraph

variable {m : Type → Type} [Monad m] [FileSystem m]

/-- Takes the fingerprint of a module file. -/
def Fingerprint.ofFile (p : Path) : Task m Fingerprint := do
  let stat ← Task.ofIo (FileSystem.stat p)
  let contents ← Task.ofIo (FileSystem.read p)
  return {
    path := ← FileSystem.canonicalOrSelf p
    size := stat.size
    modified := max stat.modified 0
    sha256 := Sha256.hexDigest contents }

/-- A directory of persisted caches. -/
structure Store where
  directory : Path
  deriving DecidableEq, Inhabited, Repr

namespace Store

/-! ## §1 Look-up -/

/-- The file of a module's cache, named after the module. -/
def pathFor (s : Store) (module : Path) : Path :=
  Path.join s.directory ((Path.stem? module).getD "module" ++ "Cache.json.gz")

/-- The persisted cache may stand for what extracting the module would give. -/
def isUsable (fingerprint : Fingerprint) (c : Conventions) (p : PersistedCache) : Bool :=
  p.formatVersion = PersistedCache.currentVersion && p.fingerprint = fingerprint
    && p.conventionsDigest = c.digest && p.cache.problems.isEmpty

/-- The persisted cache of a module, if there is a usable one. -/
def load? (s : Store) (fingerprint : Fingerprint) (c : Conventions) : m (Option Cache) := do
  match ← (PersistedCache.load (s.pathFor fingerprint.path)).run with
  | .ok p => return if isUsable fingerprint c p then some p.cache else none
  | .error _ => return none

/-- Persists the cache of a module and gives the path of the file. -/
def save (s : Store) (fingerprint : Fingerprint) (c : Conventions) (cache : Cache) :
    Task m Path := do
  let p := s.pathFor fingerprint.path
  (PersistedCache.ofCache fingerprint c cache (← FileSystem.now)).save p
  return p

/-! ## §2 Modules -/

/-- Extracts a module and persists its cache, if that is possible. -/
def extract (s : Store) (module : Path) (c : Conventions) (fingerprint : Fingerprint) :
    m (Cache × Outcome) := do
  match ← (extractModule module c).run with
  | .error _ => return (.empty, .degraded)
  | .ok cache =>
    -- A cache that cannot be persisted is still a cache.
    discard (s.save fingerprint c cache).run
    return (cache, .extracted)

/-- The cache of a module: a usable persisted one, unless fresh extraction is forced, else an
extracted one, else the empty one. -/
def obtain (s : Store) (module : Path) (c : Conventions) (force : Bool) :
    m (Cache × Outcome) := do
  match ← (Fingerprint.ofFile module).run with
  | .error _ => return (.empty, .degraded)
  | .ok fingerprint =>
    let persisted ← if force then pure none else s.load? fingerprint c
    match persisted with
    | some cache => return (cache, .hit)
    | none => s.extract module c fingerprint

end Store

end SchemaGraph
