import Mathlib.Data.List.Induction
import SchemaGraph.Library.Inventory
import SchemaGraph.Proofs.Merge.Interning
import SchemaGraph.Proofs.SortedMap

/-!
# Inventories and Their Histories

An inventory is filled note by note.  What it says in the end is told by the notes alone: its keys
come in the order in which they were noted first, and the entry of a key is the one noted last.

- `Inventory.get?_record`, `Inventory.contains_record`, `Inventory.loadOrder_record`: one more note
- `Inventory.Tells.record`: the step, from a history to a longer one
- `Inventory.tells_noting`: an inventory tells its whole history
-/

namespace SchemaGraph

namespace Inventory

/-! ## §1 One note -/

section Record

variable (i : Inventory) (key : String) (entry : InventoryEntry) (now key' : String)

/-- An inventory knows the modules that it has an entry for. -/
theorem contains_eq : i.modules.contains key = (i.get? key).isSome := rfl

/-- The new entry is found under its key, and nothing else has changed. -/
theorem get?_record :
    (i.record key entry now).get? key' = if key = key' then some entry else i.get? key' :=
  SortedMap.get?_insert i.modules key entry key'

/-- What is noted in an inventory is there. -/
theorem contains_record :
    (i.record key entry now).modules.contains key' =
      (decide (key = key') || i.modules.contains key') := by
  rw [contains_eq, contains_eq, get?_record]
  by_cases h : key = key' <;> simp [h]

/-- A key keeps the place in the load order that it got first. -/
theorem loadOrder_record :
    (i.record key entry now).loadOrder =
      if i.modules.contains key = true then i.loadOrder else i.loadOrder ++ [key] := rfl

end Record

/-! ## §2 Histories -/

/-- An entry that is noted for a module at some time. -/
structure Note where
  key : String
  entry : InventoryEntry
  time : String

/-- The inventory after some notes, in their order. -/
def noting (i : Inventory) (notes : List Note) : Inventory :=
  notes.foldl (fun i n => i.record n.key n.entry n.time) i

/-- The entry that was noted last for a module. -/
def lastNoted? (notes : List Note) (key : String) : Option InventoryEntry :=
  (notes.reverse.find? (·.key = key)).map (·.entry)

theorem noting_concat (i : Inventory) (notes : List Note) (n : Note) :
    i.noting (notes ++ [n]) = (i.noting notes).record n.key n.entry n.time := by
  simp [noting]

/-- A later note takes the place of the earlier ones. -/
theorem lastNoted?_concat (notes : List Note) (n : Note) (key : String) :
    lastNoted? (notes ++ [n]) key =
      if n.key = key then some n.entry else lastNoted? notes key := by
  simp only [lastNoted?, List.reverse_append, List.reverse_singleton, List.singleton_append,
    List.find?_cons]
  by_cases h : n.key = key <;> simp [h]

/-- An entry has been noted for the keys of the notes, and for no other. -/
theorem isSome_lastNoted?_iff (notes : List Note) (key : String) :
    (lastNoted? notes key).isSome = true ↔ key ∈ notes.map (·.key) := by
  simp [lastNoted?]

/-! ## §3 What an inventory tells -/

/-- **An inventory tells its history**: the keys in the order in which they were noted first, each
once, and for each key the entry that was noted last. -/
structure Tells (i : Inventory) (notes : List Note) : Prop where
  order : i.loadOrder = distinct (notes.map (·.key))
  entries : ∀ key, i.get? key = lastNoted? notes key

namespace Tells

variable {i : Inventory} {notes : List Note}

theorem contains_iff (h : i.Tells notes) (key : String) :
    i.modules.contains key = true ↔ key ∈ notes.map (·.key) := by
  rw [contains_eq, h.entries, isSome_lastNoted?_iff]

theorem mem_loadOrder_iff (h : i.Tells notes) (key : String) :
    key ∈ i.loadOrder ↔ ∃ e, lastNoted? notes key = some e := by
  rw [h.order, mem_distinct, ← isSome_lastNoted?_iff, Option.isSome_iff_exists]

/-- **One more note**: the inventory tells a history that is longer by this note. -/
theorem record (h : i.Tells notes) (n : Note) :
    (i.record n.key n.entry n.time).Tells (notes ++ [n]) := by
  constructor
  · -- The key goes to the end unless it has been noted before.
    rw [loadOrder_record, h.order, List.map_append, List.map_singleton, distinct_concat]
    apply if_congr (h.contains_iff n.key)
    · rfl
    · rfl
  · intro key
    rw [get?_record, lastNoted?_concat, h.entries]

end Tells

/-- **A whole history**: whatever is noted in an empty inventory, it tells just that. -/
theorem tells_noting (start : String) (notes : List Note) :
    ((empty start).noting notes).Tells notes := by
  -- The notes are taken from the end, where each of them meets all that came before.
  induction notes using List.reverseRecOn with
  | nil => exact ⟨rfl, fun _ => rfl⟩
  | append_singleton notes n ih =>
    rw [noting_concat]
    exact ih.record n

end Inventory

end SchemaGraph
