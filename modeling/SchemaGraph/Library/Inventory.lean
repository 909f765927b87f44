import SchemaGraph.Store.Fingerprint

/-!
# Inventories

The inventory of a library says which modules it has loaded, how each was obtained, and in which
order they first appeared.  Two inventories are compared to find the modules that changed.
-/

namespace SchemaGraph

open Document

/-! ## §1 Entries -/

/-- What is known about one loaded module. -/
structure InventoryEntry where
  /-- Absent if the module could not be read. -/
  fingerprint : Option Fingerprint
  outcome : Outcome
  loadedAt : String
  /-- Definitions were tagged by their full names. -/
  namespacePrefix : Bool
  definitions : Nat
  schemas : Nat
  variants : Nat
  deriving DecidableEq, Inhabited, Repr

namespace InventoryEntry

/-- An entry as a document. -/
def toJson (e : InventoryEntry) : Json :=
  .obj (Field.optionalEntry "fingerprint" Fingerprint.toJson e.fingerprint
    ++ [("outcome", .str e.outcome.word), ("loaded_at", .str e.loadedAt),
      ("namespace_prefix", .bool e.namespacePrefix), ("definitions", .int e.definitions),
      ("schemas", .int e.schemas), ("variants", .int e.variants)])

/-- Reads an entry. -/
def read? (j : Json) : Option InventoryEntry :=
  match fields? ["fingerprint", "outcome", "loaded_at", "namespace_prefix", "definitions",
      "schemas", "variants"] j with
  | some [fingerprint, outcome, loadedAt, namespacePrefix, definitions, schemas, variants] => do
    return {
      fingerprint := ← optional Fingerprint.read? fingerprint
      outcome := ← required (wordOf? Outcome.ofWord?) outcome
      loadedAt := ← required text? loadedAt
      namespacePrefix := ← required flag? namespacePrefix
      definitions := ← required nat64? definitions
      schemas := ← required nat64? schemas
      variants := ← required nat64? variants }
  | _ => none

end InventoryEntry

/-! ## §2 Inventories -/

/-- The modules of a library by key. -/
structure Inventory where
  toolVersion : String
  updatedAt : String
  modules : SortedMap InventoryEntry
  /-- The keys in the order of their first appearance. -/
  loadOrder : List String
  deriving DecidableEq, Inhabited

namespace Inventory

/-- The version written into new inventories. -/
def currentVersion : String := "0.1.0"

/-- The inventory of no module. -/
def empty (now : String) : Inventory := ⟨currentVersion, now, .empty, []⟩

/-- The entry of a module. -/
def get? (i : Inventory) (key : String) : Option InventoryEntry := i.modules.get? key

/-- The inventory with the entry of a module, replacing an earlier one. -/
def record (i : Inventory) (key : String) (entry : InventoryEntry) (now : String) : Inventory :=
  { i with
    modules := i.modules.insert key entry
    loadOrder := if i.modules.contains key then i.loadOrder else i.loadOrder ++ [key]
    updatedAt := now }

/-- The recorded digest of a module, if it could be read. -/
def digestOf? (i : Inventory) (key : String) : Option String :=
  (i.get? key).bind fun e => e.fingerprint.map (·.sha256)

/-- The modules whose digest is another one in `current`, or missing in just one of both. -/
def changedSince (i current : Inventory) : List String :=
  i.loadOrder.filter fun key => i.digestOf? key ≠ current.digestOf? key

/-! ## §3 Inventories as documents -/

/-- An inventory as a document. -/
def toJson (i : Inventory) : Json :=
  .obj [("tool_version", .str i.toolVersion), ("updated_at", .str i.updatedAt),
    ("modules", i.modules.toJson InventoryEntry.toJson),
    ("load_order", Field.textsToJson i.loadOrder)]

/-- Reads an inventory. -/
def read? (j : Json) : Option Inventory :=
  match fields? ["tool_version", "updated_at", "modules", "load_order"] j with
  | some [toolVersion, updatedAt, modules, loadOrder] => do
    return {
      toolVersion := ← required text? toolVersion
      updatedAt := ← required text? updatedAt
      modules := ← defaulted .empty (mapOf? InventoryEntry.read?) modules
      loadOrder := ← defaulted [] (listOf? text?) loadOrder }
  | _ => none

end Inventory

end SchemaGraph
