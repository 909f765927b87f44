import SchemaGraph.Extraction
import SchemaGraph.Json.Reader
import SchemaGraph.Module.Encoding
import SchemaGraph.Store.Failure
import SchemaGraph.Yaml.Spot
import SchemaGraph.Yaml.Text

/-!
# Loading Modules and Conventions

Modules are dumped as JSON or YAML, told apart by the extension of the file; conventions are
written in YAML.
-/

namespace SchemaGraph

variable {m : Type → Type} [Monad m] [FileSystem m]

/-! ## §1 Modules -/

/-- The file holds YAML. -/
def Path.isYaml (p : Path) : Bool := p.extension? = some "yml" || p.extension? = some "yaml"

/-- The manifest in a text of one of the two formats. -/
def ModuleManifest.ofText? (isYaml : Bool) (text : String) : Option ModuleManifest :=
  if isYaml then (Yaml.Node.parse? text).bind (·.read? ModuleManifest.read?)
  else (Json.parse? text).bind ModuleManifest.read?

/-- Loads a module. -/
def Module.load (p : Path) : Task m Module := do
  if !(← FileSystem.isFile p) then throw (.moduleLoad p .missing)
  match ← FileSystem.read p with
  | .error e => throw (.moduleLoad p (.unreadable e))
  | .ok contents =>
    match contents.text? with
    | none => throw (.moduleLoad p (.unreadable .notText))
    | some text =>
      let manifest ← Task.require (.moduleLoad p .malformed)
        (ModuleManifest.ofText? (Path.isYaml p) text)
      return .ofManifest p manifest

/-- Writes a manifest as pretty JSON. -/
def ModuleManifest.save (manifest : ModuleManifest) (p : Path) : Task m Unit :=
  Task.ofIo (FileSystem.write p (Bytes.ofText manifest.toJson.pretty))

/-- Loads a module and extracts it by usable conventions. -/
def extractModule (p : Path) (c : Conventions) : Task m Cache := do
  if let some missing := c.missingName? then throw (.conventions missing)
  let loaded ← Module.load p
  match loaded.extract c with
  | .ok cache => return cache
  | .error e => throw (.introspection e)

/-! ## §2 Conventions -/

/-- Reads the contents of a file that holds YAML.  What cannot be read once it is there counts as
malformed. -/
def readYaml (p : Path) : Task m Yaml.Node := do
  match ← FileSystem.read p with
  | .ok contents => Task.require .yaml (contents.text?.bind Yaml.Node.parse?)
  | .error .isADirectory => throw .yaml
  | .error e => throw (.io e)

/-- Loads usable conventions. -/
def Conventions.load (p : Path) : Task m Conventions := do
  let c ← Task.require .yaml ((← readYaml p).read? Conventions.read?)
  if let some missing := c.missingName? then throw (.conventions missing)
  return c

/-- Writes conventions. -/
def Conventions.save (c : Conventions) (p : Path) : Task m Unit :=
  Task.ofIo (FileSystem.write p (Bytes.ofText (Yaml.document c.toJson)))

end SchemaGraph
