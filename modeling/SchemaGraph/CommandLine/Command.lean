import SchemaGraph.CommandLine.Arguments
import SchemaGraph.Files.Path
import SchemaGraph.Report

/-!
# Commands

The commands of the program with their parameters.
-/

namespace SchemaGraph.CommandLine

/-! ## §1 Commands -/

/-- Where the type that is inspected comes from. -/
inductive InspectSource where
  /-- A module, read by the standard conventions or by those of a file. -/
  | module (path : Path) (conventions : Option Path)
  | cache (path : Path)
  deriving DecidableEq, Inhabited, Repr

/-- The modules and the places of an extraction. -/
structure ExtractArguments where
  settings : Option Path
  baseModule : Option Path
  addons : List Path
  cacheDirectory : Option Path
  jobs : Option Nat
  force : Bool
  output : Path
  deriving DecidableEq, Inhabited, Repr

/-- A command. -/
inductive Command where
  /-- Extracts a base module and its add-ons into one cache. -/
  | extract (arguments : ExtractArguments)
  /-- Merges caches from left to right into one. -/
  | merge (inputs : List Path) (output : Path) (overwrite : Bool)
  /-- Prints the outline of a type. -/
  | inspect (typeName : String) (source : InspectSource) (depth : Nat)
  /-- Prints the definitions of a cache. -/
  | outline (cache : Path) (format : ReportFormat)
  /-- Checks caches. -/
  | validate (inputs : List Path)
  /-- Lists what may stand at a path, or the tags at the root. -/
  | query (cache : Path) (path : Option String)
  deriving DecidableEq, Inhabited, Repr

/-! ## §2 Parameters -/

/-- The switches of every command. -/
def commonOptions : List Parameter := [⟨"verbose", none, true⟩, ⟨"help", none, false⟩]

/-- An option that takes a path. -/
def pathOption (name : String) : Parameter := ⟨name, some .path, false⟩

/-- The parameters of a command, if there is one of that name. -/
def grammarOf? (name : String) : Option Grammar :=
  match name with
  | "extract" =>
    some ⟨commonOptions ++ [pathOption "config", pathOption "module", ⟨"addon", some .path, true⟩,
      pathOption "cache-dir", ⟨"jobs", some .count, false⟩, ⟨"force", none, false⟩,
      pathOption "output"], []⟩
  | "merge" =>
    some ⟨commonOptions ++ [pathOption "output", ⟨"overwrite", none, false⟩],
      [⟨"inputs", some .path, true⟩]⟩
  | "inspect" =>
    some ⟨commonOptions ++ [pathOption "module", pathOption "cache", pathOption "config",
      ⟨"depth", some .count, false⟩], [⟨"type", some .text, false⟩]⟩
  | "outline" =>
    some ⟨commonOptions ++ [pathOption "cache",
      ⟨"format", some (.word (ReportFormat.all.map (·.word))), false⟩], []⟩
  | "validate" => some ⟨commonOptions, [⟨"inputs", some .path, true⟩]⟩
  | "query" => some ⟨commonOptions ++ [pathOption "cache"], [⟨"path", some .text, false⟩]⟩
  | _ => none

/-! ## §3 Commands of arguments -/

/-- The inputs of a command that needs at least one. -/
def inputsOf (r : Reading) : Except Usage (List Path) :=
  match r.values "inputs" with
  | [] => .error .missingArgument
  | inputs => .ok inputs

/-- The source of an inspection: either a module or a cache.  Conventions belong to a module. -/
def sourceOf (r : Reading) : Except Usage InspectSource :=
  match r.value? "module", r.value? "cache" with
  | some _, some _ => .error .conflict
  | some path, none => .ok (.module path (r.value? "config"))
  | none, some path => .ok (.cache path)
  | none, none => .error .missingArgument

/-- The command of a name with the arguments that were read. -/
def commandOf (name : String) (r : Reading) : Except Usage Command := do
  match name with
  | "extract" =>
    return .extract {
      settings := r.value? "config"
      baseModule := r.value? "module"
      addons := r.values "addon"
      cacheDirectory := r.value? "cache-dir"
      jobs := (r.value? "jobs").bind count?
      force := r.has "force"
      output := ← r.need "output" }
  | "merge" => return .merge (← inputsOf r) (← r.need "output") (r.has "overwrite")
  | "inspect" =>
    let source ← sourceOf r
    return .inspect (← r.need "type") source (((r.value? "depth").bind count?).getD 4)
  | "outline" =>
    return .outline (← r.need "cache")
      (((r.value? "format").bind ReportFormat.ofWord?).getD .table)
  | "validate" => return .validate (← inputsOf r)
  -- The grammar has let no other name through.
  | _ => return .query (← r.need "cache") (r.value? "path")

/-- The options that may stand before the name of a command. -/
def leadingGrammar : Grammar := ⟨commonOptions ++ [⟨"version", none, false⟩], []⟩

/-- The end of a call for help on a command, which has to exist. -/
def helpOn : List String → Usage
  | [] => .help
  | [name] => if name = "help" ∨ (grammarOf? name).isSome then .help else .unknownCommand
  | _ => .unknownCommand

/-- Reads arguments in front of the name of a command, and the command.  `seen` tells whether
there were any. -/
def parseFrom (seen : Bool) : List String → Except Usage Command
  | [] => .error (if seen then .missingCommand else .nothingGiven)
  | a :: rest =>
    -- Help is asked for in place of a command, or on one.
    if a = "help" then .error (helpOn rest)
    else
      match grammarOf? a with
      | some g => Reading.all g false {} rest >>= commandOf a
      | none =>
        -- Behind two dashes a name is no command any more, so it can only be reported.
        if a = "--" then
          match rest with
          | [] => .error (if seen then .missingCommand else .nothingGiven)
          | b :: _ =>
            .error
              (if b = "help" ∨ (grammarOf? b).isSome then .unknownArgument else .unknownCommand)
        else
          match a.toList with
          | '-' :: _ :: _ =>
            -- Only switches stand in front of a command, so each argument is read by itself.
            match Reading.all leadingGrammar false {} [a] with
            | .ok _ => parseFrom true rest
            | .error e => .error e
          | _ => .error .unknownCommand

/-- The command of a list of arguments. -/
def parse (arguments : List String) : Except Usage Command := parseFrom false arguments

end SchemaGraph.CommandLine
