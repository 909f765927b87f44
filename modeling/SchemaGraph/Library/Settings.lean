import SchemaGraph.Store.Loading

/-!
# Library Settings

Which modules a library consists of, where it keeps its caches, and by which conventions its
modules are read.  Settings are written in YAML; their paths are relative to the directory of the
file they stand in.
-/

namespace SchemaGraph

open Document

/-- The settings of a library. -/
structure LibrarySettings where
  baseModule : Path
  /-- The add-on modules in the order in which they are merged. -/
  addons : List Path := []
  cacheDirectory : Path := ".cache/defschema"
  /-- How many add-ons may be extracted at once; zero leaves it open.  The result does not depend
  on it. -/
  jobs : Nat := 0
  conventions : Conventions := {}
  deriving DecidableEq, Inhabited, Repr

namespace LibrarySettings

/-! ## §1 Settings as documents -/

/-- Settings as a document. -/
def toJson (s : LibrarySettings) : Json :=
  .obj [("base_module", .str s.baseModule), ("addons", Field.textsToJson s.addons),
    ("cache_dir", .str s.cacheDirectory), ("jobs", .int s.jobs),
    ("extraction", s.conventions.toJson)]

/-- Reads settings. -/
def read? {m : Type → Type} [Monad m] [MonadExceptOf Unit m] {ν : Type} [Document m ν] (v : ν) :
    m LibrarySettings := do
  let standard : LibrarySettings := { baseModule := "" }
  match ← fields? ["base_module", "addons", "cache_dir", "jobs", "extraction"] v with
  | [baseModule, addons, cacheDirectory, jobs, conventions] => do
    return {
      baseModule := ← required text? baseModule
      addons := ← defaulted standard.addons (listOf? text?) addons
      cacheDirectory := ← defaulted standard.cacheDirectory text? cacheDirectory
      jobs := ← defaulted standard.jobs nat64? jobs
      conventions := ← defaulted standard.conventions Conventions.read? conventions }
  | _ => throw ()

/-! ## §2 Files -/

/-- The settings with their paths taken relative to a directory. -/
def relativeTo (directory : Path) (s : LibrarySettings) : LibrarySettings :=
  { s with
    baseModule := Path.join directory s.baseModule
    addons := s.addons.map (Path.join directory)
    cacheDirectory := Path.join directory s.cacheDirectory }

variable {m : Type → Type} [Monad m] [FileSystem m]

/-- Loads settings with usable conventions. -/
def load (p : Path) : Task m LibrarySettings := do
  let s ← Task.require .yaml ((← readYaml p).read? LibrarySettings.read?)
  if let some missing := s.conventions.missingName? then throw (.conventions missing)
  return match Path.parent? p with
    | some directory => s.relativeTo directory
    | none => s

/-- Writes settings. -/
def save (s : LibrarySettings) (p : Path) : Task m Unit :=
  Task.ofIo (FileSystem.write p (Bytes.ofText (Yaml.document s.toJson)))

end LibrarySettings

end SchemaGraph
