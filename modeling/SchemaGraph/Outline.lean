import SchemaGraph.Model.Cache
import SchemaGraph.Text.Segment

/-!
# Outlines

An outline prints the fields of a type, one line for each, and descends into nested structures
up to a depth.  A field whose schema handle is already carried by an enclosing field is marked
as recursive and not descended into.  The lines are computed before they are written, so that
what an outline shows can be told apart from how it looks.
-/

namespace SchemaGraph

/-! ## §1 Where outlines read from -/

/-- The two arenas an outline reads. -/
structure Arenas where
  schemas : List Schema
  variants : List Variant

namespace Arenas

/-- The fields below a field, if its structure is known. -/
def below? (arenas : Arenas) (f : Field) : Option (List Field) :=
  match f.inlineChildren? with
  | some children => some children
  | none => (entryAt? arenas.schemas f.schemaId).map (·.fields)

/-- The class names of the variants of a field. -/
def variantNames (arenas : Arenas) (f : Field) : List String :=
  ((f.variantIds.getD []).filterMap (entryAt? arenas.variants)).map (·.fullName)

end Arenas

/-! ## §2 Lines -/

/-- A line of an outline. -/
structure OutlineLine where
  depth : Nat
  field : Field
  /-- The schema handle of the field is carried by an enclosing field. -/
  recursive : Bool
  deriving DecidableEq, Inhabited, Repr

/-- The lines of fields at `depth`, below fields with the handles of `path`, and of what is
below them for `levels` further levels. -/
def outlineLines (arenas : Arenas) :
    (levels depth : Nat) → (path : List Handle) → List Field → List OutlineLine
  | 0, depth, path, fields => fields.map fun f => ⟨depth, f, path.contains f.schemaId⟩
  | levels + 1, depth, path, fields =>
    fields.flatMap fun f =>
      ⟨depth, f, path.contains f.schemaId⟩ ::
        if path.contains f.schemaId ∨ ¬f.kind.hasStructure then []
        else
          match arenas.below? f with
          | some children => outlineLines arenas levels (depth + 1) (f.schemaId :: path) children
          | none => []

/-! ## §3 Text -/

namespace OutlineLine

/-- What a line adds to the name and the declared type. -/
def remark (arenas : Arenas) (f : Field) : String :=
  match f.kind with
  | .enumerated => " [" ++ Text.joinWith ", " (f.enumValues.getD []) ++ "]"
  | .polymorphicList => " <" ++ Text.joinWith " | " (arenas.variantNames f) ++ ">"
  | .external => " (external)"
  | _ => ""

/-- The text of a line. -/
def render (arenas : Arenas) (line : OutlineLine) : String :=
  String.ofList (List.replicate (2 * line.depth) ' ') ++ "-- " ++ line.field.name ++ " : "
    ++ line.field.declaredType ++ remark arenas line.field
    ++ (if line.recursive then " (recursive)" else "") ++ "\n"

end OutlineLine

/-- The outline of a type with the given fields, at most `maxDepth` levels deep. -/
def renderOutline (arenas : Arenas) (title : String) (fields : List Field) (maxDepth : Nat) :
    String :=
  let lines := outlineLines arenas (maxDepth - 1) 1 [] fields
  title ++ "\n" ++ String.join (lines.map (OutlineLine.render arenas))

/-! ## §4 Types of a cache -/

namespace Cache

/-- The arenas of a cache. -/
def arenas (c : Cache) : Arenas := ⟨c.schemas, c.variants⟩

/-- The fields of a named type: the first definition with that full name or tag, else the first
schema of that name, else the first variant with its short name. -/
def describe? (c : Cache) (typeName : String) : Option (List Field) :=
  match c.definitions.find? (fun d => d.fullName = typeName ∨ d.tagName = typeName) with
  | some d => some d.fields
  | none =>
    match c.schemas.find? (fun s => s.fullName = typeName) with
    | some s => some s.fields
    | none =>
      (c.variants.find? (fun v => v.fullName = Text.afterLast '.' typeName)).map (·.fields)

/-- The outline of a named type. -/
def outline? (c : Cache) (typeName : String) (maxDepth : Nat) : Option String :=
  (c.describe? typeName).map fun fields => renderOutline c.arenas typeName fields maxDepth

end Cache

end SchemaGraph
