import SchemaGraph.CommandLine.Command
import SchemaGraph.Library
import SchemaGraph.Outline
import SchemaGraph.Query

/-!
# Running Commands

A run writes to two outputs and ends with an exit code.  What fails is reported as the last line
of the error output.
-/

namespace SchemaGraph.CommandLine

/-! ## §1 Transcripts -/

/-- What a run has written. -/
structure Transcript where
  output : String := ""
  errors : List String := []
  deriving DecidableEq, Inhabited, Repr

/-- How a run ended. -/
structure Result where
  transcript : Transcript
  exitCode : Nat
  deriving DecidableEq, Inhabited, Repr

/-- A run, which may fail with a message. -/
abbrev Run (m : Type → Type) := ExceptT String (StateT Transcript m)

variable {m : Type → Type} [Monad m] [FileSystem m]

/-- Writes text. -/
def print (text : String) : Run m Unit := modify fun t => { t with output := t.output ++ text }

/-- Writes a line. -/
def printLine (line : String) : Run m Unit := print (line ++ "\n")

/-- Writes a line to the error output. -/
def report (line : String) : Run m Unit := modify fun t => { t with errors := t.errors ++ [line] }

/-- Runs a task; a failure is reported behind the given words. -/
def attempt {α : Type} (words : String) (task : Task (Run m) α) : Run m α := do
  match ← task.run with
  | .ok x => return x
  | .error e => throw (words ++ e.message)

/-- A path in quotes, as messages name it. -/
def quoted (p : Path) : String := "'" ++ p ++ "'"

/-- Reads a cache. -/
def readCache (p : Path) : Run m Cache :=
  attempt ("Failed to read cache " ++ quoted p ++ ": ") (Cache.load p)

/-- Writes a cache. -/
def writeCache (p : Path) (c : Cache) : Run m Unit :=
  attempt ("Failed to write " ++ quoted p ++ ": ") (c.save p)

/-! ## §2 Extraction -/

/-- The settings of an extraction: those of a file or of a base module, with what the arguments
say in their place. -/
def settingsOf (a : ExtractArguments) : Run m LibrarySettings := do
  let s ←
    match a.settings, a.baseModule with
    | some p, _ => attempt ("Failed to load config " ++ quoted p ++ ": ") (LibrarySettings.load p)
    | none, some p => pure { baseModule := p }
    | none, none => throw "Specify a base module with --module or --config"
  return { s with
    baseModule := a.baseModule.getD s.baseModule
    addons := s.addons ++ a.addons
    cacheDirectory := a.cacheDirectory.getD s.cacheDirectory
    jobs := a.jobs.getD s.jobs }

/-- Extracts a library, says which modules have changed since its last run, and writes its
cache. -/
def runExtract (a : ExtractArguments) : Run m Unit := do
  let s ← settingsOf a
  -- The last inventory is read before this run writes its own over it.
  let previous ← (Library.loadInventory (Path.join s.cacheDirectory Library.inventoryFile)).run
  let library ← Library.ofSettings s a.force
  -- A library without its base module is of no use, so the command fails.
  if !(← library.contains s.baseModule) then
    throw ("Failed to load base module " ++ quoted s.baseModule)
  if let .ok previous := previous then
    for key in previous.changedSince library.inventory do
      printLine ("Changed since last run: " ++ key)
  discard library.saveInventory.run
  let c := library.cache
  writeCache a.output c
  printLine ("Extracted " ++ toString c.definitions.length ++ " definition(s), "
    ++ toString c.schemas.length ++ " schema(s), " ++ toString c.variants.length
    ++ " variant(s) from " ++ toString library.inventory.modules.size ++ " module(s) into "
    ++ quoted a.output ++ ".")

/-! ## §3 Caches -/

/-- Merges caches and writes the result. -/
def runMerge (inputs : List Path) (output : Path) (overwrite : Bool) : Run m Unit := do
  let strategy := if overwrite then MergeStrategy.overwrite else .append
  let merged ← inputs.foldlM (fun merged input => do
    let incoming ← readCache input
    let collisions := (merged.mergeReport strategy incoming).variantCollisions
    if 0 < collisions then
      report (input ++ ": " ++ toString collisions
        ++ " variant name collision(s), existing variants kept")
    return merged.merge strategy incoming) Cache.empty
  writeCache output merged
  printLine ("Merged " ++ toString inputs.length ++ " cache(s) into " ++ quoted output ++ " ("
    ++ toString merged.definitions.length ++ " definition(s)).")

/-- The outline of a type of a module or of a cache. -/
def outlineFrom (typeName : String) (depth : Nat) : InspectSource → Run m (Option String)
  | .module p conventions => do
    let c ←
      match conventions with
      | some q => attempt ("Failed to load config " ++ quoted q ++ ": ") (Conventions.load q)
      | none => pure {}
    let loaded ← attempt "" (Module.load p)
    let pass : Pass := { module := loaded, conventions := c }
    return pass.outline? typeName depth
  | .cache p => return (← readCache p).outline? typeName depth

/-- Prints the outline of a type. -/
def runInspect (typeName : String) (source : InspectSource) (depth : Nat) : Run m Unit := do
  match ← outlineFrom typeName depth source with
  | some text => print text
  | none => throw ("Unknown type " ++ quoted typeName)

/-- Prints a report of a cache, with a line end behind it. -/
def runOutline (p : Path) (format : ReportFormat) : Run m Unit := do
  let text := (← readCache p).report format
  print text
  if !Text.endsWith "\n" text then print "\n"

/-- Checks caches. -/
def runValidate (inputs : List Path) : Run m Unit := do
  let invalid ← inputs.foldlM (fun invalid input => do
    let problems := (← readCache input).problems
    if problems.isEmpty then return invalid
    report (input ++ ": " ++ toString problems.length ++ " problem(s)")
    for problem in problems do report ("  " ++ problem.message)
    return invalid + 1) 0
  if 0 < invalid then
    throw (toString invalid ++ " of " ++ toString inputs.length ++ " cache(s) failed validation")
  printLine ("Validated " ++ toString inputs.length ++ " cache file(s).")

/-- Lists what may stand at a path; without one, or with a blank one, the tags at the root. -/
def runQuery (p : Path) (path : Option String) : Run m Unit := do
  let c ← readCache p
  let lines :=
    match path.map Text.trim with
    | none | some "" => c.rootTags
    | some path => c.offersAt path
  for line in lines do printLine line

/-! ## §4 Commands -/

/-- Runs a command. -/
def Command.run : Command → Run m Unit
  | .extract a => runExtract a
  | .merge inputs output overwrite => runMerge inputs output overwrite
  | .inspect typeName source depth => runInspect typeName source depth
  | .outline cache format => runOutline cache format
  | .validate inputs => runValidate inputs
  | .query cache path => runQuery cache path

/-- The result of a command. -/
def Command.result (c : Command) : m Result := do
  let (ended, t) ← (c.run (m := m)).run.run {}
  match ended with
  | .ok () => return ⟨t, 0⟩
  | .error message => return ⟨{ t with errors := t.errors ++ ["error: " ++ message] }, 1⟩

end SchemaGraph.CommandLine
