import SchemaGraph.CommandLine
import Std.Time.DateTime

/-!
# The Program

The command line on the disk: the file system of the machine, its clock, and the outputs of the
process.
-/

namespace SchemaGraph.Program

/-! ## §1 The disk -/

/-- The number of a failure; some operations give the negative number as an unsigned word. -/
def plainCode (code : UInt32) : Nat := code.toInt32.toInt.natAbs

/-- The number and the words of a failure of the system. -/
def systemCode? : IO.Error → Option (Nat × String)
  | .alreadyExists _ code details | .otherError code details | .resourceBusy code details
  | .resourceVanished code details | .unsupportedOperation code details
  | .hardwareFault code details | .unsatisfiedConstraints code details
  | .illegalOperation code details | .protocolError code details | .timeExpired code details
  | .interrupted _ code details | .noFileOrDirectory _ code details
  | .invalidArgument _ code details | .permissionDenied _ code details
  | .resourceExhausted _ code details | .inappropriateType _ code details
  | .noSuchThing _ code details => some (plainCode code, details)
  | .unexpectedEof | .userError _ => none

/-- A failure of the system as a failure of an operation on files. -/
def ofSystem (e : IO.Error) : IoError :=
  match systemCode? e with
  | some (2, _) => .notFound
  | some (17, _) => .alreadyExists
  | some (20, _) => .notADirectory
  | some (21, _) => .isADirectory
  | some (36, _) => .nameTooLong
  | some (code, details) => .other (details ++ " (os error " ++ toString code ++ ")")
  | none => .other (toString e)

/-- Runs an operation of the system. -/
def guarded {α : Type} (run : IO α) : IO (Except IoError α) := do
  match ← run.toBaseIO with
  | .ok x => return .ok x
  | .error e => return .error (ofSystem e)

/-- A number with leading zeros. -/
def padded (width : Nat) (n : Int) : String :=
  let digits := toString n.toNat
  String.ofList (List.replicate (width - digits.length) '0') ++ digits

/-- The time of the clock, in universal time. -/
def timestamp : IO String := do
  let t := Std.Time.PlainDateTime.ofWallTime
    ((← Std.Time.Timestamp.now).toWallTime Std.Time.TimeZone.Offset.zero)
  return padded 4 t.year.toInt ++ "-" ++ padded 2 t.month.val ++ "-" ++ padded 2 t.day.val ++ "T"
    ++ padded 2 t.hour.val ++ ":" ++ padded 2 t.minute.val ++ ":" ++ padded 2 t.second.val ++ "."
    ++ padded 9 t.nanosecond.val ++ "+00:00"

instance : FileSystem IO where
  read p := guarded do return (← IO.FS.readBinFile p).toList
  write p contents := guarded (IO.FS.writeBinFile p ⟨contents.toArray⟩)
  createDirectories p := guarded do
    if p ≠ "" then IO.FS.createDirAll p
  stat p := guarded do
    let known ← (← IO.FS.realPath p).metadata
    return ⟨known.type == .file, known.byteSize.toNat, known.modified.sec⟩
  canonical p := guarded do return toString (← IO.FS.realPath p)
  now := timestamp

/-! ## §2 The process -/

/-- How the program is called. -/
def usageText : String :=
  String.join (["Usage: schemagraph [-v] COMMAND [ARGUMENTS]", "",
    "extract   extract a base module and its add-ons into one cache",
    "merge     merge caches from left to right into one",
    "inspect   print the outline of a type",
    "outline   print the definitions of a cache",
    "validate  check caches",
    "query     list what may stand at a path"].map (· ++ "\n"))

/-- Runs the program with arguments and gives the exit code. -/
def run (arguments : List String) : IO Nat := do
  match CommandLine.parse arguments with
  | .error usage =>
    match usage with
    | .help => IO.print usageText
    | .version => IO.println Inventory.currentVersion
    | _ => IO.eprint usageText
    return usage.exitCode
  | .ok command =>
    let result ← command.result (m := IO)
    IO.print result.transcript.output
    for line in result.transcript.errors do IO.eprintln line
    return result.exitCode

end SchemaGraph.Program

/-- The program. -/
def main (arguments : List String) : IO UInt32 := do
  return (← SchemaGraph.Program.run arguments).toUInt32
