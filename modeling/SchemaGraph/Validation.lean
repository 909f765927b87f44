import SchemaGraph.Model.Cache
import SchemaGraph.Text.Segment

/-!
# Validation

A cache is sound when every handle points into its arena, every field carries exactly the
payload of its kind, and no definition, schema or variant has a blank name.  Validation lists
what is wrong, in the order of definitions, schemas and variants.
-/

namespace SchemaGraph

/-! ## §1 Problems -/

/-- Something wrong with a cache, and where. -/
inductive Problem where
  /-- A schema handle beyond the arena of `size` entries. -/
  | danglingSchema (location : String) (handle : Handle) (size : Nat)
  /-- A variant handle outside the arena of `size` entries. -/
  | danglingVariant (location : String) (handle : Handle) (size : Nat)
  /-- Enumeration values on another kind, or none on an enumerated field. -/
  | enumPayload (location : String)
  /-- Variant handles on another kind, or none on a polymorphic list. -/
  | variantPayload (location : String)
  /-- A blank name. -/
  | emptyName (location : String)
  deriving DecidableEq, Inhabited, Repr

namespace Problem

/-- Where the problem is. -/
def location : Problem → String
  | .danglingSchema location _ _ => location
  | .danglingVariant location _ _ => location
  | .enumPayload location => location
  | .variantPayload location => location
  | .emptyName location => location

/-- A handle outside an arena, in words. -/
def danglingText (what location : String) (handle : Handle) (size : Nat) : String :=
  "dangling " ++ what ++ " handle " ++ toString handle ++ " at " ++ location ++
    " (arena has " ++ toString size ++ " entries)"

/-- The problem in words. -/
def message : Problem → String
  | .danglingSchema location handle size => danglingText "schema" location handle size
  | .danglingVariant location handle size => danglingText "variant" location handle size
  | .enumPayload location => "enum values do not match field kind at " ++ location
  | .variantPayload location => "variant ids do not match field kind at " ++ location
  | .emptyName location => "empty name at " ++ location

end Problem

/-! ## §2 Checks -/

/-- The sizes of the two arenas that handles are checked against. -/
structure ArenaSizes where
  schemas : Nat
  variants : Nat

/-- A schema handle may be negative, but not beyond the arena. -/
def checkSchemaHandle (sizes : ArenaSizes) (location : String) (h : Handle) : List Problem :=
  if (sizes.schemas : Int) ≤ h then [.danglingSchema location h sizes.schemas] else []

/-- A variant handle must lie inside the arena. -/
def checkVariantHandle (sizes : ArenaSizes) (location : String) (h : Handle) : List Problem :=
  if h < 0 ∨ (sizes.variants : Int) ≤ h then [.danglingVariant location h sizes.variants]
  else []

/-- A name must not be blank. -/
def checkName (location name : String) : List Problem :=
  if Text.isBlankText name then [.emptyName location] else []

/-- The checks of one field without its children. -/
def checkField (sizes : ArenaSizes) (location : String) (f : Field) : List Problem :=
  checkSchemaHandle sizes location f.schemaId
    ++ (if (f.kind = .enumerated) ↔ f.enumValues.isSome then [] else [.enumPayload location])
    ++ (if (f.kind = .polymorphicList) ↔ f.variantIds.isSome then []
        else [.variantPayload location])
    ++ (f.variantIds.getD []).flatMap (checkVariantHandle sizes location)

mutual

/-- The checks of a field and of everything below it. -/
def checkTree (sizes : ArenaSizes) (parent : String) (f : Field) : List Problem :=
  match f with
  | ⟨n, t, k, e, v, s, none, h, l, m⟩ =>
    checkField sizes (parent ++ "/" ++ n) ⟨n, t, k, e, v, s, none, h, l, m⟩
  | ⟨n, t, k, e, v, s, some children, h, l, m⟩ =>
    checkField sizes (parent ++ "/" ++ n) ⟨n, t, k, e, v, s, none, h, l, m⟩
      ++ checkTrees sizes (parent ++ "/" ++ n) children

/-- The checks of a list of fields. -/
def checkTrees (sizes : ArenaSizes) (parent : String) : List Field → List Problem
  | [] => []
  | f :: fs => checkTree sizes parent f ++ checkTrees sizes parent fs

end

/-! ## §3 Caches -/

namespace Cache

/-- The sizes of the arenas of a cache. -/
def sizes (c : Cache) : ArenaSizes := ⟨c.schemas.length, c.variants.length⟩

/-- The checks of a definition. -/
def checkDefinition (sizes : ArenaSizes) (d : Definition) : List Problem :=
  let location := "definition " ++ d.tagName
  checkName location d.tagName ++ checkTrees sizes location d.fields

/-- The checks of the schema at a position. -/
def checkSchema (sizes : ArenaSizes) (position : Nat) (s : Schema) : List Problem :=
  let location := "schema #" ++ toString position ++ " " ++ s.fullName
  checkName location s.fullName ++ checkTrees sizes location s.fields

/-- The checks of the variant at a position. -/
def checkVariant (sizes : ArenaSizes) (position : Nat) (v : Variant) : List Problem :=
  let location := "variant #" ++ toString position ++ " " ++ v.fullName
  checkName location v.fullName ++ checkSchemaHandle sizes location v.schemaId
    ++ checkTrees sizes location v.fields

/-- Everything that is wrong with a cache; nothing, if it is sound. -/
def problems (c : Cache) : List Problem :=
  c.definitions.flatMap (checkDefinition c.sizes)
    ++ (c.schemas.mapIdx (checkSchema c.sizes)).flatten
    ++ (c.variants.mapIdx (checkVariant c.sizes)).flatten

end Cache

end SchemaGraph
