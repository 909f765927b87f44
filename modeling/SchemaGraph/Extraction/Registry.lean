import SchemaGraph.Extraction.Introspection
import SchemaGraph.Model.Cache

/-!
# The Registry

Schemas and variants are created on request, each at most once, and are known by handle from
the moment of the request.  The fields of a new entry are resolved while its place in the arena is
already taken, so a resolver that comes back to an entry under construction gets its handle
instead of running again.

A schema whose resolver fails stays failed: its place in the arena remains, but it is not
reachable by name, and every later request fails.  A variant whose resolver fails keeps its place
with no fields.
-/

namespace SchemaGraph

/-! ## §1 Arenas -/

/-- The schemas and variants created so far and the schemas that could not be built. -/
structure Registry where
  schemas : List Schema := []
  variants : List Variant := []
  /-- The failed types, the latest first, each with the failure that later requests meet. -/
  failures : List (String × IntrospectionError) := []
  deriving DecidableEq, Inhabited, Repr

namespace Registry

/-- The failure of a type whose schema could not be built. -/
def failure? (r : Registry) (fullName : String) : Option IntrospectionError :=
  r.failures.lookup fullName

/-- The handle of a type's schema, unless it failed. -/
def schemaHandle? (r : Registry) (fullName : String) : Option Handle :=
  match r.failure? fullName with
  | some _ => none
  | none => (r.schemas.findIdx? (fun s => s.fullName = fullName)).map Int.ofNat

/-- The handle of the variant with a short name. -/
def variantHandle? (r : Registry) (shortName : String) : Option Handle :=
  (r.variants.findIdx? (fun v => v.fullName = shortName)).map Int.ofNat

/-- The registry with one more schema, still without fields. -/
def reserveSchema (r : Registry) (fullName : String) : Registry :=
  { r with schemas := r.schemas ++ [.placeholder fullName] }

/-- The registry with one more variant, still without fields; it shares the schema of its type,
if there is one by now. -/
def reserveVariant (r : Registry) (fullName shortName : String) (isSpecialKind : Bool) :
    Registry :=
  let schemaId := (r.schemaHandle? fullName).getD noHandle
  { r with variants := r.variants ++ [.placeholder shortName schemaId isSpecialKind] }

/-- The registry with the fields of the schema at a position. -/
def fillSchema (r : Registry) (position : Nat) (fields : List Field) : Registry :=
  { r with schemas := r.schemas.modify position ({ · with fields }) }

/-- The registry with the fields of the variant at a position. -/
def fillVariant (r : Registry) (position : Nat) (fields : List Field) : Registry :=
  { r with variants := r.variants.modify position ({ · with fields }) }

/-- The registry with a failed type; later requests meet the failure as one of that type. -/
def recordFailure (r : Registry) (fullName : String) (e : IntrospectionError) : Registry :=
  { r with failures := (fullName, ⟨fullName, e.message⟩) :: r.failures }

end Registry

/-! ## §2 Requests -/

/-- A computation that requests registry entries, keeps notes of its own, and may fail.  What it
did before it failed stays done. -/
abbrev Build (ν : Type) := ExceptT IntrospectionError (StateM (Registry × ν))

namespace Registry

variable {ν : Type}

/-- Requests the schema of a type: its handle, or no handle if the type needs none.  The fields
are resolved on the first request only. -/
def requestSchema (needsSchema : String → Bool) (fullName : String)
    (resolve : Build ν (List Field)) : Build ν Handle := fun (r, notes) =>
  match r.failure? fullName with
  | some e => (.error e, (r, notes))
  | none =>
    match r.schemaHandle? fullName with
    | some h => (.ok h, (r, notes))
    | none =>
      if needsSchema fullName then
        match resolve (r.reserveSchema fullName, notes) with
        | (.ok fields, (r', notes')) =>
          (.ok r.schemas.length, (r'.fillSchema r.schemas.length fields, notes'))
        | (.error e, (r', notes')) => (.error e, (r'.recordFailure fullName e, notes'))
      else (.ok noHandle, (r, notes))

/-- Requests the variant of a type by its short name.  The fields are resolved on the first
request only, and a failure to resolve them leaves the variant without fields. -/
def requestVariant (fullName shortName : String) (isSpecialKind : Bool)
    (resolve : Build ν (List Field)) : Build ν Handle := fun (r, notes) =>
  match r.variantHandle? shortName with
  | some h => (.ok h, (r, notes))
  | none =>
    match resolve (r.reserveVariant fullName shortName isSpecialKind, notes) with
    | (.ok fields, (r', notes')) =>
      (.ok r.variants.length, (r'.fillVariant r.variants.length fields, notes'))
    | (.error _, (r', notes')) => (.ok r.variants.length, (r', notes'))

end Registry

end SchemaGraph
