import SchemaGraph.Interning
import SchemaGraph.Model.Cache
import SchemaGraph.Text.Segment

/-!
# Path Queries

Editors name a node of a document by a path of tags such as `Defs/ThingDef/comps/li`.  A query
walks such a path through the definitions of a cache and the schemas of its arena, as deep as
the path can be recognized, and says what may stand below.
-/

namespace SchemaGraph

/-- The tag of list items in documents. -/
def itemTag : String := "li"

namespace Cache

/-! ## §1 Tags -/

/-- The last definition with a tag. -/
def lastDefinition? (c : Cache) (tag : String) : Option Definition :=
  c.definitions.reverse.find? (fun d => d.tagName = tag)

/-- A definition has the tag. -/
def hasTag (c : Cache) (tag : String) : Bool := c.definitions.any (fun d => d.tagName = tag)

/-- The tags of the definitions in ascending order, each once. -/
def rootTags (c : Cache) : List String :=
  (distinct (c.definitions.map (·.tagName))).mergeSort (fun a b => a ≤ b)

/-! ## §2 Paths -/

/-- The segments of a path: trimmed, without the blank ones. -/
def pathSegments (path : String) : List String :=
  ((Text.splitAt '/' path).map Text.trim).filter (· ≠ "")

/-- The part of a list that starts at the last entry with a property, the first entry aside;
the whole list if no other entry has it. -/
def fromLast {α : Type} (p : α → Bool) : List α → List α
  | [] => []
  | x :: xs =>
    match (xs.reverse.dropWhile (fun y => !p y)) with
    | [] => x :: xs
    | _ :: before => xs.drop before.length

/-- The segments that count: they start at the last segment that is a tag, or at the first
segment if no later one is a tag. -/
def segments (c : Cache) (path : String) : List String := fromLast c.hasTag (pathSegments path)

/-! ## §3 Walking -/

/-- The deepest field that segments lead to, below the fields `current` of the field `last`.
An item tag right below a list is stepped over. -/
def walk (schemas : List Schema) (current : List Field) (last : Option Field) :
    List String → Option Field
  | [] => last
  | segment :: rest =>
    if segment = itemTag ∧ last.any (·.kind.isList) then walk schemas current last rest
    else
      match current.find? (fun f => f.name = segment) with
      | none => last
      | some f =>
        if f.kind.hasStructure then walk schemas (f.childrenIn schemas) (some f) rest
        else some f

/-- The deepest field that counted segments lead to. -/
def deepestIn (c : Cache) : List String → Option Field
  | [] => none
  | tag :: rest =>
    match c.lastDefinition? tag with
    | none => none
    | some d => walk c.schemas d.fields none rest

/-- The deepest field that a path leads to; none if it leads to no definition or to the
definition itself. -/
def deepestField? (c : Cache) (path : String) : Option Field := c.deepestIn (c.segments path)

/-- The field that a path leads to, if any, and the fields below. -/
def childrenAt (c : Cache) (path : String) : Option Field × List Field :=
  match c.segments path with
  | [tag] => (none, (c.lastDefinition? tag).elim [] (·.fields))
  | segments =>
    match c.deepestIn segments with
    | some f => (some f, if f.kind.hasStructure then f.childrenIn c.schemas else [])
    | none => (none, [])

/-! ## §4 Offers -/

/-- The piece of the path after its last slash is an item tag; slashes at the end do not
count. -/
def endsInItem (path : String) : Bool :=
  let trimmed := String.ofList (path.toList.reverse.dropWhile (· = '/')).reverse
  Text.trim (Text.afterLast '/' trimmed) = itemTag

/-- The class names of a polymorphic list, or the item tag if none is known. -/
def variantNames (c : Cache) (f : Field) : List String :=
  match (f.variantIds.getD []).filterMap c.variant? with
  | [] => [itemTag]
  | variants => variants.map (·.fullName)

/-- What may stand below a path:

* below a polymorphic list its class names;
* below another list the named instances of its item type, the type looked up through the cast
  table; without any, the names of the item's fields if the path ends in an item, else the item
  tag;
* below everything else the names of the fields there. -/
def offersAt (c : Cache) (path : String) : List String :=
  let (node, children) := c.childrenAt path
  let names := children.map (·.name)
  match node with
  | none => names
  | some f =>
    if f.kind = .polymorphicList then c.variantNames f
    else
      match f.listItemType? with
      | none => names
      | some item =>
        match c.enumeratedValues? (c.castTarget item) with
        | some values => values
        | none => if endsInItem path then names else [itemTag]

end Cache

end SchemaGraph
