import SchemaGraph.Bytes.Gzip
import SchemaGraph.Json.Reader
import SchemaGraph.Store.Failure
import SchemaGraph.Store.Fingerprint

/-!
# Persisted Caches

A cache is persisted as a gzip file with what it was made from: the fingerprint of its module and
the digest of the conventions.  A cache can also be written bare, compressed or not; reading tells
the forms apart by trying the persisted one first.
-/

namespace SchemaGraph

open Document

/-! ## §1 Persisted caches -/

/-- A cache with what it was made from. -/
structure PersistedCache where
  formatVersion : Nat
  fingerprint : Fingerprint
  conventionsDigest : String
  generatedAt : String
  cache : Cache
  deriving DecidableEq, Inhabited

namespace PersistedCache

/-- The version of the layout. -/
def currentVersion : Nat := 1

/-- The persisted form of a cache. -/
def ofCache (fingerprint : Fingerprint) (c : Conventions) (cache : Cache) (now : String) :
    PersistedCache where
  formatVersion := currentVersion
  fingerprint
  conventionsDigest := c.digest
  generatedAt := now
  cache

/-- A persisted cache as a document. -/
def toJson (p : PersistedCache) : Json :=
  .obj [("format_version", .int p.formatVersion), ("fingerprint", p.fingerprint.toJson),
    ("config_digest", .str p.conventionsDigest), ("generated_at", .str p.generatedAt),
    ("cache", p.cache.toJson)]

/-- Reads a persisted cache. -/
def read? (j : Json) : Option PersistedCache :=
  match fields? ["format_version", "fingerprint", "config_digest", "generated_at", "cache"] j with
  | some [formatVersion, fingerprint, conventionsDigest, generatedAt, cache] => do
    return {
      formatVersion := ← required nat32? formatVersion
      fingerprint := ← required Fingerprint.read? fingerprint
      conventionsDigest := ← defaulted "" text? conventionsDigest
      generatedAt := ← required text? generatedAt
      cache := ← required Cache.read? cache }
  | _ => none

/-- The contents of the file of a persisted cache. -/
def toBytes (p : PersistedCache) : Bytes := Gzip.compress (Bytes.ofText p.toJson.compact)

/-- The persisted cache in the contents of a file. -/
def ofBytes? (contents : Bytes) : Option PersistedCache := do
  read? (← Json.parseBytes? (← Gzip.decompress? contents))

end PersistedCache

/-! ## §2 Caches of either form -/

namespace Cache

/-- The cache in a document of either form.  Which form it has is told from its shape, so all of
the document has to be readable. -/
def ofDocument? (j : Json) : Option Cache :=
  if j.isReadable then (PersistedCache.read? j).map (·.cache) <|> Cache.read? j else none

/-- The cache in the contents of a file, compressed or not. -/
def ofBytes? (contents : Bytes) : Option Cache := do
  let contents ← if Gzip.hasMagic contents then Gzip.decompress? contents else some contents
  ofDocument? (← Json.parse? (← contents.text?))

/-- The contents of a file with the bare cache. -/
def toBytes (compressed : Bool) (c : Cache) : Bytes :=
  if compressed then Gzip.compress (Bytes.ofText c.toJson.compact)
  else Bytes.ofText c.toJson.pretty

end Cache

/-! ## §3 Files -/

variable {m : Type → Type} [Monad m] [FileSystem m]

/-- Reads the file of a persisted cache.  What cannot be read once it is there counts as
corrupt. -/
def PersistedCache.load (p : Path) : Task m PersistedCache := do
  match ← FileSystem.read p with
  | .ok contents => Task.require (.corruptCache p) (PersistedCache.ofBytes? contents)
  | .error .isADirectory => throw (.corruptCache p)
  | .error e => throw (.io e)

/-- Writes the file of a persisted cache. -/
def PersistedCache.save (c : PersistedCache) (p : Path) : Task m Unit :=
  Task.ofIo (FileSystem.writeWithDirectory p c.toBytes)

/-- Reads a file with a cache of either form. -/
def Cache.load (p : Path) : Task m Cache := do
  let contents ← Task.ofIo (FileSystem.read p)
  Task.require (.corruptCache p) (Cache.ofBytes? contents)

/-- Writes a bare cache, compressed if the extension says so. -/
def Cache.save (c : Cache) (p : Path) : Task m Unit :=
  Task.ofIo (FileSystem.writeWithDirectory p (c.toBytes (Path.extension? p = some "gz")))

end SchemaGraph
