import SchemaGraph.Bytes.Basic
import SchemaGraph.Files.Path

/-!
# File Systems

What the library needs of a file system, and how operations on files fail.  Everything that reads
or writes files is stated for any file system, so it can be run on a disk and reasoned about on a
tree in memory.
-/

namespace SchemaGraph

/-! ## §1 Failures -/

/-- Why an operation on files failed. -/
inductive IoError where
  | notFound
  | alreadyExists
  | notADirectory
  | isADirectory
  /-- The path or one of its steps is too long. -/
  | nameTooLong
  /-- The path holds a zero character. -/
  | zeroInName
  /-- The contents are no text. -/
  | notText
  /-- Any other failure, in the words of the system. -/
  | other (text : String)
  deriving DecidableEq, Inhabited, Repr

/-- The failure in words. -/
def IoError.message : IoError → String
  | .notFound => "No such file or directory (os error 2)"
  | .alreadyExists => "File exists (os error 17)"
  | .notADirectory => "Not a directory (os error 20)"
  | .isADirectory => "Is a directory (os error 21)"
  | .nameTooLong => "File name too long (os error 36)"
  | .zeroInName => "file name contained an unexpected NUL byte"
  | .notText => "stream did not contain valid UTF-8"
  | .other text => text

/-! ## §2 Operations -/

/-- What is known about a file or directory. -/
structure FileStat where
  isFile : Bool
  size : Nat
  /-- The time of the last change in seconds. -/
  modified : Int
  deriving DecidableEq, Inhabited, Repr

/-- A file system and a clock.

* `read` and `write` take whole contents; `write` needs the directory to exist;
* `createDirectories` makes a directory and those around it, and is content with what exists;
* `canonical` gives the absolute path of something that exists;
* `now` is the time as it is written into documents. -/
class FileSystem (m : Type → Type) where
  read : Path → m (Except IoError Bytes)
  write : Path → Bytes → m (Except IoError Unit)
  createDirectories : Path → m (Except IoError Unit)
  stat : Path → m (Except IoError FileStat)
  canonical : Path → m (Except IoError Path)
  now : m String

/-- A computation that may fail has the file system of the computation without failures. -/
instance {m : Type → Type} {ε : Type} [Monad m] [FileSystem m] : FileSystem (ExceptT ε m) where
  read p := ExceptT.lift (FileSystem.read p)
  write p contents := ExceptT.lift (FileSystem.write p contents)
  createDirectories p := ExceptT.lift (FileSystem.createDirectories p)
  stat p := ExceptT.lift (FileSystem.stat p)
  canonical p := ExceptT.lift (FileSystem.canonical p)
  now := ExceptT.lift FileSystem.now

/-- A computation with a state has the file system of the computation without it. -/
instance {m : Type → Type} {σ : Type} [Monad m] [FileSystem m] : FileSystem (StateT σ m) where
  read p := StateT.lift (FileSystem.read p)
  write p contents := StateT.lift (FileSystem.write p contents)
  createDirectories p := StateT.lift (FileSystem.createDirectories p)
  stat p := StateT.lift (FileSystem.stat p)
  canonical p := StateT.lift (FileSystem.canonical p)
  now := StateT.lift FileSystem.now

namespace FileSystem

variable {m : Type → Type} [Monad m] [FileSystem m]

/-- A file exists at the path. -/
def isFile (p : Path) : m Bool := do
  match ← stat p with
  | .ok s => return s.isFile
  | .error _ => return false

/-- The canonical path, or the path itself where nothing exists. -/
def canonicalOrSelf (p : Path) : m Path := do
  match ← canonical p with
  | .ok c => return c
  | .error _ => return p

/-- Writes a file after making the directory around it. -/
def writeWithDirectory (p : Path) (contents : Bytes) : m (Except IoError Unit) := do
  match p.parent? with
  | none => write p contents
  | some directory =>
    match ← createDirectories directory with
    | .ok () => write p contents
    | .error e => return .error e

end FileSystem

end SchemaGraph
