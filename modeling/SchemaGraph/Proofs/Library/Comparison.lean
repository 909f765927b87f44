import SchemaGraph.Proofs.Library.Inventory

/-!
# Comparing Inventories

Two inventories are compared by the digests that they have of their modules.  That there is no
digest can mean two things: the module could not be read, or there is no entry of it.  A comparison
does not tell them apart, so a module that could not be read and of which there is no entry any
more goes unnoticed.  All other changes are found.

- `Inventory.Changed`: what changes a module, told by the two histories
- `Inventory.Tells.mem_changedSince_iff`: the modules that a comparison lists
- `Inventory.listsChanges_iff`: when these are the changed ones
- `Inventory.not_listsChanges_unread`: an add-on that could not be read and was given up
-/

namespace SchemaGraph

/-- The digest of the module, if it could be read. -/
def InventoryEntry.digest? (e : InventoryEntry) : Option String := e.fingerprint.map (·.sha256)

namespace Inventory

variable {notes notes' : List Note} {key : String}

/-! ## §1 Changes -/

/-- **A changed module**: there is an entry of it, and later there is none, or one with another
digest. -/
def Changed (notes notes' : List Note) (key : String) : Prop :=
  ∃ e, lastNoted? notes key = some e ∧
    (lastNoted? notes' key = none ∨ ∃ e', lastNoted? notes' key = some e' ∧ e.digest? ≠ e'.digest?)

/-- **A lost module**: it could not be read, and later there is no entry of it. -/
def Lost (notes notes' : List Note) (key : String) : Prop :=
  ∃ e, lastNoted? notes key = some e ∧ e.digest? = none ∧ lastNoted? notes' key = none

/-- **A list of the changes**: the changed modules in the order in which they were noted first,
each of them once. -/
structure ListsChanges (notes notes' : List Note) (keys : List String) : Prop where
  inOrder : keys.Sublist (distinct (notes.map (·.key)))
  nodup : keys.Nodup
  mem_iff : ∀ key, key ∈ keys ↔ Changed notes notes' key

/-- A lost module is a changed one. -/
theorem Lost.changed (h : Lost notes notes' key) : Changed notes notes' key := by
  obtain ⟨e, he, -, hgone⟩ := h
  exact ⟨e, he, .inl hgone⟩

/-! ## §2 What a comparison lists -/

theorem changedSince_sublist (old current : Inventory) :
    (old.changedSince current).Sublist old.loadOrder := List.filter_sublist

theorem changedSince_self (i : Inventory) : i.changedSince i = [] := by
  simp [changedSince]

namespace Tells

variable {old current : Inventory}

theorem digestOf?_eq (h : old.Tells notes) (key : String) :
    old.digestOf? key = (lastNoted? notes key).bind InventoryEntry.digest? := by
  rw [digestOf?, h.entries]
  rfl

/-- A module is listed if the digests differ, where there is none without an entry. -/
theorem mem_changedSince_of_noted (h : old.Tells notes) (h' : current.Tells notes')
    {e : InventoryEntry} (he : lastNoted? notes key = some e) :
    key ∈ old.changedSince current ↔
      e.digest? ≠ (lastNoted? notes' key).bind InventoryEntry.digest? := by
  have hkey : key ∈ old.loadOrder := (h.mem_loadOrder_iff key).2 ⟨e, he⟩
  simp [changedSince, hkey, h.digestOf?_eq, h'.digestOf?_eq, he]

/-- **What a comparison lists**: the changed modules without the lost ones. -/
theorem mem_changedSince_iff (h : old.Tells notes) (h' : current.Tells notes') (key : String) :
    key ∈ old.changedSince current ↔ Changed notes notes' key ∧ ¬ Lost notes notes' key := by
  cases he : lastNoted? notes key with
  | none =>
    -- A module that was not noted is not in the load order.
    have hnot : key ∉ old.changedSince current := by
      intro hmem
      have hkey : key ∈ old.loadOrder := (changedSince_sublist old current).subset hmem
      obtain ⟨e, he'⟩ := (h.mem_loadOrder_iff key).1 hkey
      rw [he] at he'
      cases he'
    simp [hnot, Changed, he]
  | some e =>
    rw [h.mem_changedSince_of_noted h' he]
    cases he' : lastNoted? notes' key with
    | none =>
      -- The module is dropped: it has changed, and it is lost unless it has a digest.
      simp [Changed, Lost, he, he']
    | some e' =>
      -- The module stays, so it cannot be lost.
      simp [Changed, Lost, he, he']

theorem nodup_changedSince (h : old.Tells notes) (current : Inventory) :
    (old.changedSince current).Nodup := by
  apply (changedSince_sublist old current).nodup
  rw [h.order]
  exact nodup_distinct _

/-- A comparison lists the changes exactly if no module is lost. -/
theorem listsChanges_changedSince_iff (h : old.Tells notes) (h' : current.Tells notes') :
    ListsChanges notes notes' (old.changedSince current) ↔ ∀ key, ¬ Lost notes notes' key := by
  constructor
  · -- A lost module is a change that is not listed.
    intro hlists key hlost
    have hmem : key ∈ old.changedSince current := (hlists.mem_iff key).2 hlost.changed
    exact ((h.mem_changedSince_iff h' key).1 hmem).2 hlost
  · intro hnone
    refine ⟨?_, h.nodup_changedSince current, fun key => ?_⟩
    · rw [← h.order]
      exact changedSince_sublist old current
    · rw [h.mem_changedSince_iff h' key]
      exact and_iff_left (hnone key)

end Tells

/-! ## §3 Any two histories -/

/-- **Comparing inventories**, whatever was noted in either of them: the changes are listed exactly
if no module is lost, and the lost modules are all that is ever missing. -/
theorem listsChanges_iff (start start' : String) (notes notes' : List Note) :
    let old := (empty start).noting notes
    let current := (empty start').noting notes'
    (ListsChanges notes notes' (old.changedSince current) ↔ ∀ key, ¬ Lost notes notes' key)
      -- What is listed in any case, and in which order.
      ∧ old.loadOrder = distinct (notes.map (·.key))
      ∧ (old.changedSince current).Sublist old.loadOrder
      ∧ (old.changedSince current).Nodup
      ∧ (∀ key, key ∈ old.changedSince current ↔
          Changed notes notes' key ∧ ¬ Lost notes notes' key)
      -- Nothing has changed since the same inventory; a dropped module is listed if it was read.
      ∧ old.changedSince old = []
      ∧ ∀ key e, lastNoted? notes key = some e → lastNoted? notes' key = none →
          (key ∈ old.changedSince current ↔ e.fingerprint ≠ none) := by
  intro old current
  have h : old.Tells notes := tells_noting start notes
  have h' : current.Tells notes' := tells_noting start' notes'
  refine ⟨h.listsChanges_changedSince_iff h', h.order, changedSince_sublist old current,
    h.nodup_changedSince current, h.mem_changedSince_iff h', changedSince_self old,
    fun key e he hgone => ?_⟩
  rw [h.mem_changedSince_of_noted h' he, hgone]
  simp [InventoryEntry.digest?]

/-- An entry of a module that could not be read. -/
def unreadEntry : InventoryEntry where
  fingerprint := none
  outcome := .degraded
  loadedAt := "2024"
  namespacePrefix := true
  definitions := 0
  schemas := 0
  variants := 0

/-- An add-on could not be read, and later it does not belong to the library any more.  It has
changed, and the comparison does not list it. -/
theorem not_listsChanges_unread :
    let notes : List Note := [⟨"Addon.json", unreadEntry, "2024"⟩]
    let old := (empty "2024").noting notes
    let current := (empty "2024").noting []
    old.loadOrder = ["Addon.json"] ∧ current.get? "Addon.json" = none
      ∧ old.changedSince current = []
      ∧ ¬ ListsChanges notes [] (old.changedSince current) := by
  intro notes old current
  have hempty : old.changedSince current = [] := by decide
  refine ⟨by decide, by decide, hempty, fun hlists => ?_⟩
  -- Its file had no fingerprint, so it counts as changed whatever is there now.
  have hchanged : Changed notes [] "Addon.json" := ⟨unreadEntry, by decide, .inl rfl⟩
  have hmem : "Addon.json" ∈ old.changedSince current := (hlists.mem_iff _).2 hchanged
  rw [hempty] at hmem
  cases hmem

end Inventory

end SchemaGraph
