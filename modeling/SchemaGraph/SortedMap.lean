/-!
# Sorted Maps

Maps from text to values that list their keys in ascending order.  The order is part of the
type, so two maps that answer every look-up alike are equal.
-/

namespace SchemaGraph

/-- A map with text keys, kept in ascending order of the keys. -/
structure SortedMap (α : Type) where
  entries : List (String × α)
  sorted : entries.Pairwise (fun a b => a.1 < b.1)

namespace SortedMap

variable {α : Type}

/-! ## §1 Look-up -/

/-- The map without keys. -/
def empty : SortedMap α := ⟨[], .nil⟩

instance : Inhabited (SortedMap α) := ⟨empty⟩

instance [DecidableEq α] : DecidableEq (SortedMap α) := fun a b =>
  if h : a.entries = b.entries then
    isTrue (by cases a; cases b; simp_all)
  else isFalse (by rintro rfl; exact h rfl)

/-- The value of a key among the entries. -/
def find (entries : List (String × α)) (key : String) : Option α :=
  match entries with
  | [] => none
  | (k, v) :: rest => if k = key then some v else find rest key

/-- The value of a key. -/
def get? (m : SortedMap α) (key : String) : Option α := find m.entries key

/-- The map has a value for the key. -/
def contains (m : SortedMap α) (key : String) : Bool := (m.get? key).isSome

/-- The keys in ascending order. -/
def keys (m : SortedMap α) : List String := m.entries.map (·.1)

/-- The number of keys. -/
def size (m : SortedMap α) : Nat := m.entries.length

/-- The map has no key. -/
def isEmpty (m : SortedMap α) : Bool := m.entries.isEmpty

/-! ## §2 Insertion -/

/-- Puts an entry at its place among sorted entries, replacing the one with the same key. -/
def place (key : String) (value : α) : List (String × α) → List (String × α)
  | [] => [(key, value)]
  | (k, v) :: rest =>
    if key < k then (key, value) :: (k, v) :: rest
    else if key = k then (key, value) :: rest
    else (k, v) :: place key value rest

/-- An entry of `place` is the new one or an old one. -/
theorem mem_place {key : String} {value : α} {entries : List (String × α)} {e : String × α}
    (h : e ∈ place key value entries) : e = (key, value) ∨ e ∈ entries := by
  induction entries with
  | nil => exact .inl (by simpa [place] using h)
  | cons head rest ih =>
    obtain ⟨k, v⟩ := head
    rw [place] at h
    split at h
    · simpa using h
    · split at h
      -- The entry replaces the first one of its key; all others are old.
      · rcases List.mem_cons.1 h with h | h
        · exact .inl h
        · exact .inr (List.mem_cons_of_mem _ h)
      · rcases List.mem_cons.1 h with h | h
        · exact .inr (h ▸ List.mem_cons_self)
        · rcases ih h with h | h
          · exact .inl h
          · exact .inr (List.mem_cons_of_mem _ h)

/-- `place` keeps the entries sorted. -/
theorem sorted_place (key : String) (value : α) {entries : List (String × α)}
    (h : entries.Pairwise (fun a b => a.1 < b.1)) :
    (place key value entries).Pairwise (fun a b => a.1 < b.1) := by
  induction entries with
  | nil => simp [place]
  | cons head rest ih =>
    obtain ⟨k, v⟩ := head
    obtain ⟨hk, hrest⟩ := List.pairwise_cons.1 h
    rw [place]
    split
    next hlt =>
      -- The new key is smaller than the first one, hence smaller than all.
      refine List.pairwise_cons.2 ⟨fun e he => ?_, h⟩
      rcases List.mem_cons.1 he with rfl | he
      · exact hlt
      · exact String.lt_trans hlt (hk e he)
    next hlt =>
      split
      next heq => exact List.pairwise_cons.2 ⟨fun e he => heq ▸ hk e he, hrest⟩
      next hne =>
        -- The entry goes further behind, and the first key stays smaller than all others.
        refine List.pairwise_cons.2 ⟨fun e he => ?_, ih hrest⟩
        rcases mem_place he with rfl | he
        · exact Decidable.byContradiction fun hn =>
            hne (String.le_antisymm (String.not_lt.1 hn) (String.not_lt.1 hlt))
        · exact hk e he

/-- The map with `value` for `key`. -/
def insert (m : SortedMap α) (key : String) (value : α) : SortedMap α :=
  ⟨place key value m.entries, sorted_place key value m.sorted⟩

/-- The map of a list of entries; of several with one key the last one counts. -/
def ofList (entries : List (String × α)) : SortedMap α :=
  entries.foldl (fun m e => m.insert e.1 e.2) empty

end SortedMap

end SchemaGraph
