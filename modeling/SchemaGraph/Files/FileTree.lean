import SchemaGraph.Files.FileSystem

/-!
# File Trees

A file system in memory: a tree of directories, files and symbolic links with a current directory
and a clock that stands still.  A link is known by the place that it leads to in the end, so one
never comes from a link to another one.  Nothing here makes links or takes them away.
-/

namespace SchemaGraph

/-! ## §1 Trees -/

/-- The names from the root to a place. -/
abbrev Location := List String

/-- What stands at a place. -/
inductive Entry where
  | directory
  | file (contents : Bytes) (modified : Int)
  deriving DecidableEq, Inhabited

/-- A tree of directories and files. -/
structure FileTree where
  /-- The current directory. -/
  home : Location
  entries : List (Location × Entry)
  /-- Where symbolic links stand, and where they lead, whether or not anything stands there. -/
  links : List (Location × Location) := []
  /-- The time of changes in seconds. -/
  seconds : Int := 0
  /-- The time as it is written into documents. -/
  timestamp : String := ""
  deriving Inhabited

namespace FileTree

/-- The tree with nothing in its current directory. -/
def empty (home : Location) : FileTree where
  home
  entries := (List.range (home.length + 1)).map fun n => (home.take n, .directory)

/-- What stands at a place. -/
def at? (t : FileTree) (l : Location) : Option Entry :=
  if l = [] then some .directory else t.entries.lookup l

/-- A link stands at a place. -/
def isLink (t : FileTree) (l : Location) : Bool := (t.links.lookup l).isSome

/-- Where one comes from a place: from a link to where it leads. -/
def follow (t : FileTree) (l : Location) : Location := (t.links.lookup l).getD l

/-- The tree with something at a place. -/
def put (t : FileTree) (l : Location) (e : Entry) : FileTree :=
  { t with entries := (l, e) :: t.entries.filter (·.1 ≠ l) }

/-- The tree without what stands at a place. -/
def erase (t : FileTree) (l : Location) : FileTree :=
  { t with entries := t.entries.filter (·.1 ≠ l) }

/-! ## §2 Paths -/

/-- The most bytes that one step of a path may have. -/
def maxStep : Nat := 255

/-- The most bytes that a path may have. -/
def maxPath : Nat := 4095

/-- The steps of a path up to its end. -/
def properSteps (p : Path) : List String := (Text.splitAt '/' p).filter (· ≠ "")

/-- The steps of a path; one that ends with a slash ends with a step on the spot. -/
def steps (p : Path) : List String :=
  properSteps p ++ if Text.endsWith "/" p then ["."] else []

/-- The place after one step from a directory. -/
def stepFrom (l : Location) (step : String) : Location :=
  if step = "." then l else if step = ".." then l.dropLast else l ++ [step]

/-- The place that steps lead to.  Each step needs a directory to start from, and links are
followed on the way to it; a link at the end is not. -/
def walk (t : FileTree) : Location → List String → Except IoError Location
  | l, [] => .ok l
  | l, step :: rest =>
    match t.at? (t.follow l) with
    | none => .error .notFound
    | some (.file _ _) => .error .notADirectory
    | some .directory =>
      if maxStep < step.utf8ByteSize then .error .nameTooLong
      else t.walk (stepFrom (t.follow l) step) rest

/-- The place where a path starts, if it can be taken at all. -/
def origin (t : FileTree) (p : Path) : Except IoError Location :=
  if p.toList.contains '\x00' then .error .zeroInName
  else if p = "" then .error .notFound
  else if maxPath < p.utf8ByteSize then .error .nameTooLong
  else .ok (if p.isAbsolute then [] else t.home)

/-- The place that a path names, whether or not anything stands there. -/
def locate (t : FileTree) (p : Path) : Except IoError Location := do
  t.walk (← t.origin p) (steps p)

/-- The place that a path leads to and what stands there. -/
def find (t : FileTree) (p : Path) : Except IoError (Location × Entry) := do
  let l := t.follow (← t.locate p)
  match t.at? l with
  | some e => return (l, e)
  | none => throw .notFound

/-! ## §3 Operations -/

/-- The contents of a file. -/
def read (t : FileTree) (p : Path) : Except IoError Bytes := do
  match ← t.find p with
  | (_, .file contents _) => return contents
  | (_, .directory) => throw .isADirectory

/-- The place that is named by a path to which a file can be written.  A name before a slash at the
end can only be that of a directory. -/
def locateFile (t : FileTree) (p : Path) : Except IoError Location := do
  match Text.endsWith "/" p, (properSteps p).getLast? with
  | true, some name =>
    if name = "." ∨ name = ".." then t.locate p
    else
      discard (t.walk (← t.origin p) ((properSteps p).dropLast ++ ["."]))
      throw .isADirectory
  | _, _ => t.locate p

/-- The tree after writing a file, which is written where a link leads. -/
def write (t : FileTree) (p : Path) (contents : Bytes) : Except IoError FileTree := do
  let l := t.follow (← t.locateFile p)
  match t.at? l with
  | some .directory => throw .isADirectory
  | _ =>
    match t.at? l.dropLast with
    | some .directory => return t.put l (.file contents t.seconds)
    | some (.file _ _) => throw .notADirectory
    | none => throw .notFound

/-- The tree after making one directory.  A link that leads nowhere is in the way as well. -/
def makeDirectory (t : FileTree) (p : Path) : Except IoError FileTree := do
  let l ← t.locate p
  if t.isLink l then throw .alreadyExists
  match t.at? l with
  | some _ => throw .alreadyExists
  | none => return t.put l .directory

/-- The path leads to a directory. -/
def isDirectory (t : FileTree) (p : Path) : Bool :=
  match t.find p with
  | .ok (_, .directory) => true
  | _ => false

/-- The tree after making a directory, or the tree itself where there is one. -/
def ensureDirectory (t : FileTree) (p : Path) : Except IoError FileTree :=
  match t.makeDirectory p with
  | .ok t => .ok t
  | .error e => if t.isDirectory p then .ok t else .error e

/-- Makes a directory and those around it, at most `fuel` of them. -/
def makeDirectories : (fuel : Nat) → FileTree → Path → Except IoError FileTree
  | 0, _, _ => .error .notFound
  | fuel + 1, t, p =>
    if p = "" then .ok t
    else
      -- Most directories exist already, so the path itself is tried before the ones around it.
      match t.ensureDirectory p, p.parent? with
      | .ok t, _ => .ok t
      | .error .notFound, some parent =>
        match makeDirectories fuel t parent with
        | .ok t => t.ensureDirectory p
        | .error e => .error e
      | .error e, _ => .error e

/-- What is known about what stands at a path. -/
def stat (t : FileTree) (p : Path) : Except IoError FileStat := do
  match ← t.find p with
  | (_, .file contents modified) => return ⟨true, contents.length, modified⟩
  | (_, .directory) => return ⟨false, 0, 0⟩

/-- The absolute path of a place. -/
def pathOf (l : Location) : Path := "/" ++ Text.joinWith "/" l

/-- The absolute path of something that exists, unless that is too long for a path. -/
def canonical (t : FileTree) (p : Path) : Except IoError Path := do
  let (l, _) ← t.find p
  if maxPath < (pathOf l).utf8ByteSize then throw .nameTooLong
  return pathOf l

/-- Runs an operation that changes the tree if it succeeds. -/
def change (f : FileTree → Except IoError FileTree) : StateM FileTree (Except IoError Unit) :=
  fun t =>
    match f t with
    | .ok t => (.ok (), t)
    | .error e => (.error e, t)

instance : FileSystem (StateM FileTree) where
  read p := return (← get).read p
  write p contents := change (·.write p contents)
  createDirectories p := change fun t => makeDirectories (p.length + 1) t p
  stat p := return (← get).stat p
  canonical p := return (← get).canonical p
  now := return (← get).timestamp

end FileTree

end SchemaGraph
