import SchemaGraph.Text.Segment

/-!
# Paths

Slash-separated paths and their parts.  A path is kept as it was written; repeated slashes and
single dots inside of it carry no meaning, but two dots do.
-/

namespace SchemaGraph

/-- A path as it was written. -/
abbrev Path := String

namespace Path

/-! ## §1 Parts -/

/-- The path starts at the root. -/
def isAbsolute (p : Path) : Bool := Text.beginsWith "/" p

/-- The piece at a position carries meaning.  A single dot does so only at the start. -/
def isPart (position : Nat) (piece : String) : Bool :=
  piece ≠ "" && (piece ≠ "." || position = 0)

/-- The pieces between slashes that carry meaning, with their positions. -/
def parts (p : Path) : List (String × Nat) :=
  (Text.splitAt '/' p).zipIdx.filter fun (piece, position) => isPart position piece

/-- The last part, unless it stands for a directory by its place. -/
def fileName? (p : Path) : Option String :=
  match p.parts.getLast? with
  | some (name, _) => if name = "." ∨ name = ".." then none else some name
  | none => none

/-! ## §2 Names of files -/

/-- The name before its last dot, and what follows the dot.  A dot at the start does not
count. -/
def splitName (name : String) : String × Option String :=
  match Text.beforeLast? '.' name with
  | none => (name, none)
  | some "" => (name, none)
  | some stem => (stem, some (Text.afterLast '.' name))

/-- The file name without its extension. -/
def stem? (p : Path) : Option String := p.fileName?.map fun name => (splitName name).1

/-- The extension of the file name. -/
def extension? (p : Path) : Option String := p.fileName?.bind fun name => (splitName name).2

/-! ## §3 Neighbours -/

/-- The path of the directory around a path; none for the root and the empty path. -/
def parent? (p : Path) : Option Path :=
  match p.parts.reverse with
  | [] => none
  | [_] => some (if p.isAbsolute then "/" else "")
  | _ :: (_, position) :: _ =>
    some (Text.joinWith "/" ((Text.splitAt '/' p).take (position + 1)))

/-- A path taken relative to a directory; an absolute path stays as it is. -/
def join (directory p : Path) : Path :=
  if p.isAbsolute ∨ directory = "" then p
  else if Text.endsWith "/" directory then directory ++ p
  else directory ++ "/" ++ p

end Path

end SchemaGraph
