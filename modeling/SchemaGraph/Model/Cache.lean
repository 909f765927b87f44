import SchemaGraph.Model.Field
import SchemaGraph.SortedMap

/-!
# Schema Caches

A cache is the result of extracting one or more modules: the definitions, the two arenas their
fields point into, the named instances that registries declare, and the table of wrappers around
a single definition.
-/

namespace SchemaGraph

/-! ## §1 Records -/

/-- The fields of one nested type, addressed by its position in the schema arena. -/
structure Schema where
  fullName : String
  fields : List Field
  deriving DecidableEq, Inhabited, Repr

/-- A schema whose fields are not known yet. -/
def Schema.placeholder (fullName : String) : Schema := ⟨fullName, []⟩

/-- One member of a polymorphic family, addressed by its position in the variant arena.
Its name is the short name of the type. -/
structure Variant where
  fullName : String
  schemaId : Handle
  isSpecialKind : Bool
  fields : List Field
  deriving DecidableEq, Inhabited, Repr

namespace Variant

/-- A variant whose fields are not known yet. -/
def placeholder (shortName : String) (schemaId : Handle) (isSpecialKind : Bool) : Variant :=
  ⟨shortName, schemaId, isSpecialKind, []⟩

/-- The same name, schema and kind; the fields do not matter. -/
def sameIdentity (a b : Variant) : Bool :=
  a.fullName = b.fullName && a.schemaId = b.schemaId && a.isSpecialKind = b.isSpecialKind

end Variant

/-- One definition type with the fields of its whole base chain. -/
structure Definition where
  tagName : String
  name : String
  parentName : String
  isAbstract : Bool
  ignoreValidationErrors : Bool
  fullName : String
  fields : List Field
  deriving DecidableEq, Inhabited, Repr

namespace Definition

/-- The first field of a name. -/
def field? (d : Definition) (name : String) : Option Field :=
  d.fields.find? (fun f => f.name = name)

/-- The definition as it is shown: its tag and the number of its fields. -/
def display (d : Definition) : String :=
  d.tagName ++ "(Elements: " ++ toString d.fields.length ++ ")"

end Definition

/-! ## §2 Caches -/

/-- The schemas, variants and definitions of one or more modules. -/
structure Cache where
  definitions : List Definition
  catalog : SortedMap (List String)
  schemas : List Schema
  variants : List Variant
  castTable : SortedMap String
  deriving DecidableEq, Inhabited

namespace Cache

/-- The cache of no module. -/
def empty : Cache := ⟨[], .empty, [], [], .empty⟩

/-- No definition and no arena entry; the two tables do not count. -/
def isEmpty (c : Cache) : Bool :=
  c.definitions.isEmpty && c.schemas.isEmpty && c.variants.isEmpty

/-- The schema at a handle. -/
def schema? (c : Cache) (h : Handle) : Option Schema := entryAt? c.schemas h

/-- The variant at a handle. -/
def variant? (c : Cache) (h : Handle) : Option Variant := entryAt? c.variants h

/-- The first definition with a tag. -/
def definition? (c : Cache) (tag : String) : Option Definition :=
  c.definitions.find? (fun d => d.tagName = tag)

/-- The definition that a wrapper type stands for; any other type stands for itself. -/
def castTarget (c : Cache) (typeName : String) : String :=
  (c.castTable.get? typeName).getD typeName

/-- The named instances of a definition type, if a registry declares any. -/
def enumeratedValues? (c : Cache) (typeName : String) : Option (List String) :=
  c.catalog.get? typeName

end Cache

/-! ## §3 Children -/

namespace Field

/-- The fields below a field: its own structure if it has one, else the fields of its schema,
else none. -/
def childrenIn (schemas : List Schema) (f : Field) : List Field :=
  match f.inlineChildren? with
  | some children => children
  | none =>
    match entryAt? schemas f.schemaId with
    | some schema => schema.fields
    | none => []

/-- Fresh copies of the fields below a field: only the first level, without the structure
attached to each copy. -/
def instantiateChildren (schemas : List Schema) (f : Field) : List Field :=
  (f.childrenIn schemas).map fun child => { child with children := none }

end Field

end SchemaGraph
