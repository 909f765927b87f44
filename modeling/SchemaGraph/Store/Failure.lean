import SchemaGraph.Extraction.Introspection
import SchemaGraph.Files.FileSystem

/-!
# Failures

Why a module, a document or a cache could not be read or written.
-/

namespace SchemaGraph

/-! ## §1 Causes -/

/-- Why a module could not be loaded. -/
inductive LoadCause where
  /-- There is no such file. -/
  | missing
  | unreadable (e : IoError)
  | malformed
  deriving DecidableEq, Inhabited, Repr

/-- Why an operation on documents failed. -/
inductive Failure where
  | io (e : IoError)
  /-- A document in JSON is malformed. -/
  | json
  /-- A document in YAML is malformed. -/
  | yaml
  /-- A persisted cache cannot be used. -/
  | corruptCache (path : Path)
  | moduleLoad (path : Path) (cause : LoadCause)
  | introspection (e : IntrospectionError)
  | conventions (missing : Conventions.MissingName)
  deriving DecidableEq, Inhabited, Repr

/-! ## §2 Messages -/

/-- What is said of a document that is not well formed. -/
def malformedText : String := "malformed document"

/-- The cause in words. -/
def LoadCause.message : LoadCause → String
  | .missing => "file not found"
  | .unreadable e => e.message
  | .malformed => malformedText

/-- The failure in words. -/
def Failure.message : Failure → String
  | .io e => "I/O error: " ++ e.message
  | .json => "JSON error: " ++ malformedText
  | .yaml => "YAML error: " ++ malformedText
  | .corruptCache path => "corrupt cache: " ++ path ++ ": " ++ malformedText
  | .moduleLoad path cause => "cannot load module " ++ path ++ ": " ++ cause.message
  | .introspection e => e.message
  | .conventions missing => "invalid configuration: " ++ missing.message

/-! ## §3 Tasks -/

/-- A computation on a file system that may fail. -/
abbrev Task (m : Type → Type) := ExceptT Failure m

namespace Task

variable {m : Type → Type} [Monad m] {α : Type}

/-- A task from an operation on files. -/
def ofIo (run : Task m (Except IoError α)) : Task m α := do
  match ← run with
  | .ok x => return x
  | .error e => throw (.io e)

/-- The value that was read, or a failure. -/
def require (failure : Failure) (x : Option α) : Task m α :=
  match x with
  | some x => return x
  | none => throw failure

end Task

end SchemaGraph
