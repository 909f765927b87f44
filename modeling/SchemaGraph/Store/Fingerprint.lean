import SchemaGraph.Bytes.Sha256
import SchemaGraph.Extraction.Conventions
import SchemaGraph.Json.Text

/-!
# Fingerprints

A persisted cache is only as good as the module and the conventions it was made from.  The
fingerprint of a module file tells whether the file has changed, and the digest of the conventions
whether they have.  The outcome tells what has come of the comparison.
-/

namespace SchemaGraph

open Document

/-! ## §1 Modules -/

/-- The identity of a module file when it was read. -/
structure Fingerprint where
  path : String
  size : Nat
  /-- The time of the last change in seconds. -/
  modified : Int
  /-- The digest of the contents. -/
  sha256 : String
  deriving DecidableEq, Inhabited, Repr

namespace Fingerprint

/-- A fingerprint as a document. -/
def toJson (f : Fingerprint) : Json :=
  .obj [("path", .str f.path), ("size_bytes", .int f.size), ("mtime_secs", .int f.modified),
    ("sha256", .str f.sha256)]

/-- Reads a fingerprint. -/
def read? (j : Json) : Option Fingerprint :=
  match fields? ["path", "size_bytes", "mtime_secs", "sha256"] j with
  | some [path, size, modified, sha256] => do
    return {
      path := ← required text? path
      size := ← required nat64? size
      modified := ← required int64? modified
      sha256 := ← required text? sha256 }
  | _ => none

end Fingerprint

/-! ## §2 Conventions -/

/-- The digest of conventions: that of their compact document. -/
def Conventions.digest (c : Conventions) : String :=
  Sha256.hexDigest (Bytes.ofText c.toJson.compact)

/-! ## §3 Outcomes -/

/-- How a cache was obtained. -/
inductive Outcome where
  /-- A persisted cache matched the module. -/
  | hit
  /-- The module was extracted. -/
  | extracted
  /-- The module could not be read or extracted, and the cache is empty. -/
  | degraded
  deriving DecidableEq, Inhabited, Repr

namespace Outcome

/-- The word for an outcome. -/
def word : Outcome → String
  | .hit => "hit"
  | .extracted => "extracted"
  | .degraded => "degraded"

/-- The outcome of a word. -/
def ofWord? (w : String) : Option Outcome :=
  [Outcome.hit, .extracted, .degraded].find? (fun o => o.word = w)

end Outcome

end SchemaGraph
