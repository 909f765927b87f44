import Mathlib.Data.List.Nodup
import SchemaGraph.Proofs.Library.Inventory
import SchemaGraph.Proofs.Library.Workers

/-!
# Loads of a Library

A library changes by loads only.  Each event of its life brings some loads, one for every module
that it asks for and that is not part of the library yet; what the library holds is told by all the
loads so far, in their order.  Three ways to load and what happens to the files in between come down
to one step: taking in what a load has brought.

- `Library.Accounts.taking`: one load
- `Library.Accounts.live`: the life of a library
-/

namespace SchemaGraph

open OnTree

/-! ## §1 Merging nothing -/

namespace Cache

/-- Merging the empty cache changes nothing. -/
theorem merge_empty (base : Cache) : base.merge .append .empty = base := by
  have hvariants : (MergePlan.of base .empty).addedVariants = [] := rfl
  have hschemas : (MergePlan.of base .empty).addedSchemas = [] := rfl
  simp only [merge, hvariants, hschemas, List.map_nil, List.append_nil]
  simp [empty, mergeDefinitions, mergeCatalogs, mergeCasts, SortedMap.empty]

end Cache

namespace Library

/-! ## §2 Taking in a module -/

/-- The library after a module is merged; the tree tells what is noted in the inventory. -/
def taking (l : Library) (t : FileTree) (i : Incoming) : Library :=
  ((l.absorb i : OnTree _) t).1.2

variable {l : Library} {t : FileTree} {i : Incoming}

/-- What is noted in the inventory about a module. -/
def entryOf (t : FileTree) (i : Incoming) : InventoryEntry where
  fingerprint := t.fingerprint? i.path
  outcome := i.outcome
  loadedAt := t.timestamp
  namespacePrefix := i.namespacePrefix
  definitions := i.cache.definitions.length
  schemas := i.cache.schemas.length
  variants := i.cache.variants.length

theorem absorb_apply (l : Library) (i : Incoming) (t : FileTree) :
    (l.absorb i : OnTree _) t = ((l.cache.mergeReport .append i.cache,
      { l with
        cache := l.cache.merge .append i.cache
        loaded := if i.outcome = .degraded then l.loaded else i.key :: l.loaded
        inventory := l.inventory.record i.key (entryOf t i) t.timestamp }), t) := by
  obtain ⟨answer, hanswer, hf⟩ := ofFile_apply i.path t
  have hrun : ((Fingerprint.ofFile i.path).run : OnTree _) t = (answer, t) := hanswer
  unfold absorb entryOf
  rw [bind_apply, hrun, ← hf]
  rfl

@[simp] theorem store_taking : (l.taking t i).store = l.store := by
  rw [taking, absorb_apply]

@[simp] theorem conventions_taking : (l.taking t i).conventions = l.conventions := by
  rw [taking, absorb_apply]

@[simp] theorem force_taking : (l.taking t i).force = l.force := by
  rw [taking, absorb_apply]

@[simp] theorem cache_taking : (l.taking t i).cache = l.cache.merge .append i.cache := by
  rw [taking, absorb_apply]

@[simp] theorem loaded_taking :
    (l.taking t i).loaded = if i.outcome = .degraded then l.loaded else i.key :: l.loaded := by
  rw [taking, absorb_apply]

@[simp] theorem inventory_taking :
    (l.taking t i).inventory = l.inventory.record i.key (entryOf t i) t.timestamp := by
  rw [taking, absorb_apply]

/-- The library after several modules are merged in order. -/
def takingAll (l : Library) (t : FileTree) (incoming : List Incoming) : Library :=
  incoming.foldl (·.taking t ·) l

theorem absorbAll_apply (l : Library) (incoming : List Incoming) (t : FileTree) :
    ((l.absorbAll incoming : OnTree _) t).1.2 = l.takingAll t incoming
      ∧ ((l.absorbAll incoming : OnTree _) t).2 = t := by
  induction incoming generalizing l with
  | nil => exact ⟨rfl, rfl⟩
  | cons i rest ih =>
    obtain ⟨hlibrary, htree⟩ := ih (l.taking t i)
    rw [absorbAll, bind_apply]
    have hfirst : (l.absorb i : OnTree _) t =
        ((((l.absorb i : OnTree _) t).1.1, l.taking t i), t) := by
      rw [taking, absorb_apply]
    rw [hfirst]
    exact ⟨hlibrary, htree⟩

/-! ## §3 Events -/

/-- What happens in the life of a library: modules are loaded in one of three ways, several of them
in the order of a schedule, and meanwhile the files change as they like. -/
inductive Event where
  | loadBase (p : Path)
  | addModule (p : Path)
  | addInterleaved (schedule : List Nat) (paths : List Path)
  | change (t : FileTree)

/-- The library after an event. -/
def perform (l : Library) : Event → OnTree Library
  | .loadBase p => do return (← l.loadBase p).2
  | .addModule p => do return (← l.addModule p).2
  | .addInterleaved schedule paths => do return (← l.addInterleaved schedule paths).2
  | .change t => do
    set t
    return l

/-- What the store of the library answers for a module, and the tree that it leaves. -/
def obtained (l : Library) (t : FileTree) (p : Path) (namespacePrefix : Bool) :
    (Cache × Outcome) × FileTree :=
  (l.store.obtain p (l.conventions.keepingNamespace namespacePrefix) l.force : OnTree _) t

/-- The load of a module, unless it is part of the library. -/
def loadsOf (l : Library) (p : Path) (namespacePrefix : Bool) : OnTree (List Incoming) := do
  let key ← keyOf p
  if l.loaded.contains key then return []
  let (cache, outcome) ← l.store.obtain p (l.conventions.keepingNamespace namespacePrefix) l.force
  return [⟨key, p, cache, outcome, namespacePrefix⟩]

/-- The loads that an event brings, in the order in which they are merged. -/
def loads (l : Library) : Event → OnTree (List Incoming)
  | .loadBase p => l.loadsOf p false
  | .addModule p => l.loadsOf p true
  | .addInterleaved schedule paths => do
    let keyed ← paths.mapM fun p => return (← keyOf p, p)
    let pending := l.pending keyed
    let results ← l.store.obtainAll schedule (pending.map fun k => l.addonJob k.2)
    return List.zipWith addon pending results
  | .change t => do
    set t
    return []

theorem keyOf_apply (p : Path) (t : FileTree) : (keyOf p : OnTree _) t = (t.keyOf p, t) :=
  canonicalOrSelf_apply p t

/-- A module that is part of the library is not loaded. -/
theorem loadsOf_of_mem {p : Path} (h : t.keyOf p ∈ l.loaded) (namespacePrefix : Bool) :
    l.loadsOf p namespacePrefix t = ([], t) := by
  rw [loadsOf, bind_apply, keyOf_apply]
  simp only [List.contains_eq_mem, h, decide_true, if_true]
  rfl

/-- Any other module is obtained from the store. -/
theorem loadsOf_of_notMem {p : Path} (h : t.keyOf p ∉ l.loaded) (namespacePrefix : Bool) :
    l.loadsOf p namespacePrefix t =
      ([⟨t.keyOf p, p, (l.obtained t p namespacePrefix).1.1, (l.obtained t p namespacePrefix).1.2,
        namespacePrefix⟩], (l.obtained t p namespacePrefix).2) := by
  rw [loadsOf, bind_apply, keyOf_apply]
  simp only [List.contains_eq_mem, h, decide_false, Bool.false_eq_true, if_false, bind_apply]
  rfl

theorem loadOne_apply (l : Library) (p : Path) (namespacePrefix : Bool) (t : FileTree) :
    (do return (← l.loadOne p namespacePrefix).2 : OnTree Library) t =
      (l.takingAll (l.loadsOf p namespacePrefix t).2 (l.loadsOf p namespacePrefix t).1,
        (l.loadsOf p namespacePrefix t).2) := by
  -- Loading skips a module of the library, and so do the loads.
  by_cases h : t.keyOf p ∈ l.loaded
  · rw [loadsOf_of_mem h, bind_apply, loadOne, bind_apply, keyOf_apply]
    simp only [List.contains_eq_mem, h, decide_true, if_true]
    rfl
  · rw [loadsOf_of_notMem h, bind_apply, loadOne, bind_apply, keyOf_apply]
    simp only [List.contains_eq_mem, h, decide_false, Bool.false_eq_true, if_false, bind_apply]
    simp only [absorb_apply, takingAll, List.foldl_cons, List.foldl_nil, taking]
    rfl

/-- **An event** merges the loads that it brings. -/
theorem perform_apply (l : Library) (e : Event) (t : FileTree) :
    l.perform e t = (l.takingAll (l.loads e t).2 (l.loads e t).1, (l.loads e t).2) := by
  cases e with
  | loadBase p => exact loadOne_apply l p false t
  | addModule p => exact loadOne_apply l p true t
  | addInterleaved schedule paths =>
    simp only [perform, addInterleaved, loads, bind_apply, pure_apply]
    rw [(absorbAll_apply _ _ _).1, (absorbAll_apply _ _ _).2]
  | change t' => rfl

/-! ## §4 What loads bring -/

theorem mapM_keyOf (paths : List Path) (t : FileTree) :
    (paths.mapM (fun p => return (← keyOf p, p)) : OnTree _) t =
      (paths.map fun p => (t.keyOf p, p), t) := by
  induction paths with
  | nil => rfl
  | cons p paths ih =>
    rw [List.mapM_cons]
    simp only [bind_apply, pure_apply, keyOf_apply, ih, List.map_cons]

/-- If there is an answer for every add-on, no key gets lost. -/
theorem map_key_addons {pending : List (String × Path)} {results : List (Cache × Outcome)}
    (hlength : results.length = pending.length) :
    (List.zipWith addon pending results).map (·.key) = pending.map (·.1) := by
  induction pending generalizing results with
  | nil => rfl
  | cons k pending ih =>
    cases results with
    | nil => cases hlength
    | cons r results =>
      rw [List.zipWith_cons_cons, List.map_cons, ih (Nat.succ.inj hlength), List.map_cons]
      rfl

/-- The keys of pending add-ons are those that are not loaded, each once. -/
theorem map_fst_pending (l : Library) (paths : List Path) (t : FileTree) :
    (l.pending (paths.map fun p => (t.keyOf p, p))).map (·.1) =
      newcomers id l.loaded (paths.map t.keyOf) := by
  have hfst : (paths.map fun p => (t.keyOf p, p)).map (·.1) = paths.map t.keyOf := by simp
  rw [← hfst, newcomers_map]
  rfl

/-- Several add-ons are loaded by the keys that are not loaded, each once. -/
theorem map_key_loads_addInterleaved (l : Library) (schedule : List Nat) (paths : List Path)
    (t : FileTree) :
    (l.loads (.addInterleaved schedule paths) t).1.map (·.key) =
      newcomers id l.loaded (paths.map t.keyOf) := by
  simp only [loads, bind_apply, pure_apply, mapM_keyOf]
  rw [map_key_addons, map_fst_pending]
  exact (l.store.obtainAll_proper schedule _ t).1.trans (List.length_map _)

/-- An event loads no module twice, and none that is part of the library. -/
theorem keys_loads (l : Library) (e : Event) (t : FileTree) :
    ((l.loads e t).1.map (·.key)).Nodup ∧ ∀ i ∈ (l.loads e t).1, i.key ∉ l.loaded := by
  -- A module is loaded by itself if it is new, so there is one key at most.
  have hone : ∀ p namespacePrefix, ((l.loadsOf p namespacePrefix t).1.map (·.key)).Nodup
      ∧ ∀ i ∈ (l.loadsOf p namespacePrefix t).1, i.key ∉ l.loaded := by
    intro p namespacePrefix
    by_cases h : t.keyOf p ∈ l.loaded
    · simp [loadsOf_of_mem h]
    · simp [loadsOf_of_notMem h, h]
  cases e with
  | loadBase p => exact hone p false
  | addModule p => exact hone p true
  | addInterleaved schedule paths =>
    -- Several paths are loaded with the known keys and the repetitions left out.
    have hkeys := map_key_loads_addInterleaved l schedule paths t
    constructor
    · rw [hkeys]
      simpa using nodup_map_newcomers id l.loaded (paths.map t.keyOf)
    · intro i hi
      have hkey : i.key ∈ newcomers id l.loaded (paths.map t.keyOf) :=
        hkeys ▸ List.mem_map_of_mem hi
      have hnew : id i.key ∉ l.loaded := key_notMem_of_mem_newcomers hkey
      exact hnew
  | change t' => simp [loads, bind_apply, pure_apply]

theorem obtained_degraded {p : Path} {namespacePrefix : Bool}
    (h : (l.obtained t p namespacePrefix).1.2 = .degraded) :
    (l.obtained t p namespacePrefix).1.1 = .empty := by
  unfold obtained at h ⊢
  rw [Store.obtain_apply] at h ⊢
  -- Either there is no fingerprint or the extraction failed; a hit is never degraded.
  revert h
  cases t.fingerprint? p with
  | none => exact fun _ => rfl
  | some f =>
    simp only
    split
    · exact fun h => nomatch h
    · split
      · exact fun _ => rfl
      · exact fun h => nomatch h

/-- **A degraded load** brings the empty cache. -/
theorem degraded_loads (l : Library) (e : Event) (t : FileTree) :
    ∀ i ∈ (l.loads e t).1, i.outcome = .degraded → i.cache = .empty := by
  -- The module is either known, so that nothing is loaded, or answered by the store.
  have hone : ∀ p namespacePrefix, ∀ i ∈ (l.loadsOf p namespacePrefix t).1,
      i.outcome = .degraded → i.cache = .empty := by
    intro p namespacePrefix i hi hdegraded
    by_cases h : t.keyOf p ∈ l.loaded
    · rw [loadsOf_of_mem h] at hi
      cases hi
    · rw [loadsOf_of_notMem h] at hi
      obtain rfl := List.mem_singleton.1 hi
      exact obtained_degraded hdegraded
  cases e with
  | loadBase p => exact hone p false
  | addModule p => exact hone p true
  | addInterleaved schedule paths =>
    simp only [loads, bind_apply, pure_apply, mapM_keyOf]
    intro i hi
    rw [← List.map_uncurry_zip_eq_zipWith] at hi
    obtain ⟨⟨k, r⟩, hmem, rfl⟩ := List.mem_map.1 hi
    exact (l.store.obtainAll_proper schedule _ t).2 r (List.of_mem_zip hmem).2
  | change t' => simp [loads, bind_apply, pure_apply]

/-- The modules that an event asks for. -/
def Event.paths : Event → List Path
  | .loadBase p => [p]
  | .addModule p => [p]
  | .addInterleaved _ paths => paths
  | .change _ => []

/-- **What an event loads**: the modules that it asks for, unless they are part of the library. -/
theorem mem_map_key_loads (l : Library) (e : Event) (t : FileTree) (key : String) :
    key ∈ (l.loads e t).1.map (·.key) ↔ key ∈ e.paths.map t.keyOf ∧ key ∉ l.loaded := by
  -- For a module by itself this is what `loadsOf` does with a known key and with a new one.
  have hone : ∀ p namespacePrefix, key ∈ (l.loadsOf p namespacePrefix t).1.map (·.key)
      ↔ key ∈ [p].map t.keyOf ∧ key ∉ l.loaded := by
    intro p namespacePrefix
    by_cases h : t.keyOf p ∈ l.loaded
    · rw [loadsOf_of_mem h]
      constructor
      · intro hkey
        cases hkey
      · rintro ⟨hkey, hnew⟩
        obtain rfl := List.mem_singleton.1 hkey
        exact absurd h hnew
    · rw [loadsOf_of_notMem h]
      simp only [List.map_cons, List.map_nil, List.mem_singleton]
      exact ⟨fun hkey => ⟨hkey, hkey ▸ h⟩, fun hkey => hkey.1⟩
  cases e with
  | loadBase p => exact hone p false
  | addModule p => exact hone p true
  | addInterleaved schedule paths =>
    have hkeys : key ∈ (newcomers id l.loaded (paths.map t.keyOf)).map id ↔
        key ∈ (paths.map t.keyOf).map id ∧ key ∉ l.loaded := mem_map_newcomers
    rw [map_key_loads_addInterleaved, Event.paths]
    simpa using hkeys
  | change t' => simp [loads, bind_apply, pure_apply, Event.paths]

/-! ## §5 What a library tells about its loads -/

/-- The loads that a library is made of. -/
def contributing (log : List Incoming) : List Incoming := log.filter (·.outcome ≠ .degraded)

/-- The state of a library is told by its loads: the merged cache and the loaded modules by those
that were not degraded, the inventory by all of them. -/
structure Accounts (l : Library) (log : List Incoming) : Prop where
  cache : l.cache = (contributing log).foldl (fun cache i => cache.merge .append i.cache) .empty
  loaded : l.loaded = ((contributing log).map (·.key)).reverse
  once : ((contributing log).map (·.key)).Nodup
  order : l.inventory.loadOrder = distinct (log.map (·.key))
  modules : ∀ key, l.inventory.modules.contains key = decide (key ∈ log.map (·.key))
  degraded : ∀ i ∈ log, i.outcome = .degraded → i.cache = .empty

namespace Accounts

variable {log : List Incoming}

theorem mem_loaded (h : l.Accounts log) (key : String) :
    key ∈ l.loaded ↔ key ∈ (contributing log).map (·.key) := by
  rw [h.loaded, List.mem_reverse]

/-- A new library has no loads. -/
theorem create (store : Store) (c : Conventions) (force : Bool) (t : FileTree) :
    ((Library.create store c force : OnTree Library) t).1.Accounts [] where
  cache := rfl
  loaded := rfl
  once := List.nodup_nil
  order := rfl
  modules _ := rfl
  degraded _ hi := nomatch hi

/-- **One load**: a library that takes in a module tells about one load more. -/
theorem taking (h : l.Accounts log) (hkey : i.key ∉ l.loaded)
    (hdegraded : i.outcome = .degraded → i.cache = .empty) (t : FileTree) :
    (l.taking t i).Accounts (log ++ [i]) := by
  -- The key is added to the order unless it is there, whatever the outcome is.
  have hinventory : (l.taking t i).inventory.loadOrder = distinct ((log ++ [i]).map (·.key)) := by
    rw [inventory_taking, Inventory.loadOrder_record, List.map_append, List.map_singleton,
      distinct_concat, h.modules, h.order]
    simp only [decide_eq_true_eq]
  have hmodules : ∀ key, (l.taking t i).inventory.modules.contains key =
      decide (key ∈ (log ++ [i]).map (·.key)) := by
    intro key
    rw [inventory_taking, Inventory.contains_record, h.modules, List.map_append,
      List.map_singleton]
    simp [Bool.or_comm, eq_comm]
  have hempty : ∀ j ∈ log ++ [i], j.outcome = .degraded → j.cache = .empty := by
    intro j hj
    rcases List.mem_append.1 hj with hj | hj
    · exact h.degraded j hj
    · obtain rfl := List.mem_singleton.1 hj
      exact hdegraded
  by_cases houtcome : i.outcome = .degraded
  · -- The module adds nothing but its entry in the inventory.
    have hsame : contributing (log ++ [i]) = contributing log := by
      simp [contributing, houtcome]
    refine ⟨?_, ?_, ?_, hinventory, hmodules, hempty⟩
    · rw [cache_taking, hdegraded houtcome, Cache.merge_empty, hsame, h.cache]
    · rw [loaded_taking, if_pos houtcome, hsame, h.loaded]
    · rw [hsame]
      exact h.once
  · have hmore : contributing (log ++ [i]) = contributing log ++ [i] := by
      simp [contributing, houtcome]
    refine ⟨?_, ?_, ?_, hinventory, hmodules, hempty⟩
    · rw [cache_taking, hmore, List.foldl_append, h.cache]
      rfl
    · rw [loaded_taking, if_neg houtcome, hmore, h.loaded, List.map_append, List.reverse_append]
      rfl
    · rw [hmore, List.map_append, List.nodup_append]
      refine ⟨h.once, List.nodup_singleton _, fun key hk key' hk' => ?_⟩
      obtain rfl := List.mem_singleton.1 hk'
      rintro rfl
      exact hkey ((h.mem_loaded _).2 hk)

/-- Several loads, no two of them of the same module. -/
theorem takingAll (h : l.Accounts log) {incoming : List Incoming}
    (hkeys : (incoming.map (·.key)).Nodup) (hnew : ∀ i ∈ incoming, i.key ∉ l.loaded)
    (hdegraded : ∀ i ∈ incoming, i.outcome = .degraded → i.cache = .empty) (t : FileTree) :
    (l.takingAll t incoming).Accounts (log ++ incoming) := by
  induction incoming generalizing l log with
  | nil =>
    rw [List.append_nil]
    exact h
  | cons i rest ih =>
    obtain ⟨hi, hrest⟩ := List.nodup_cons.1 hkeys
    have hfirst := h.taking (hnew i List.mem_cons_self) (hdegraded i List.mem_cons_self) t
    -- The modules that follow are still new: none of them has the key of this one.
    have hnew' : ∀ j ∈ rest, j.key ∉ (l.taking t i).loaded := by
      intro j hj hmem
      rw [loaded_taking] at hmem
      split at hmem
      · exact hnew j (List.mem_cons_of_mem _ hj) hmem
      · rcases List.mem_cons.1 hmem with hkey | hmem
        · exact hi (List.mem_map.2 ⟨j, hj, hkey⟩)
        · exact hnew j (List.mem_cons_of_mem _ hj) hmem
    have hall := ih hfirst hrest hnew' fun j hj => hdegraded j (List.mem_cons_of_mem _ hj)
    rwa [List.append_assoc] at hall

/-- **One event**: the library tells about the loads that it brings. -/
theorem perform (h : l.Accounts log) (e : Event) (t : FileTree) :
    (l.perform e t).1.Accounts (log ++ (l.loads e t).1) := by
  rw [perform_apply]
  exact h.takingAll (keys_loads l e t).1 (keys_loads l e t).2 (degraded_loads l e t) _

end Accounts

/-! ## §6 The life of a library -/

/-- The library after some events. -/
def live (l : Library) (events : List Event) : OnTree Library := events.foldlM perform l

/-- The loads that the events bring, in their order. -/
def history (l : Library) (t : FileTree) : List Event → List Incoming
  | [] => []
  | e :: events => (l.loads e t).1 ++ (l.perform e t).1.history (l.perform e t).2 events

/-- **The life of a library**: whatever happens, the library tells about its loads. -/
theorem Accounts.live {log : List Incoming} (h : l.Accounts log) (events : List Event)
    (t : FileTree) : (l.live events t).1.Accounts (log ++ l.history t events) := by
  induction events generalizing l log t with
  | nil =>
    rw [history, List.append_nil]
    exact h
  | cons e events ih =>
    have hrest := ih (h.perform e t) (l.perform e t).2
    rwa [List.append_assoc] at hrest

/-- An event none of whose loads succeeds changes nothing but the inventory. -/
theorem perform_of_degraded (l : Library) (e : Event) (t : FileTree)
    (h : ∀ i ∈ (l.loads e t).1, i.outcome = .degraded) :
    (l.perform e t).1.cache = l.cache ∧ (l.perform e t).1.loaded = l.loaded := by
  rw [perform_apply]
  have hempty := degraded_loads l e t
  generalize (l.loads e t).2 = t'
  generalize (l.loads e t).1 = incoming at h hempty
  induction incoming generalizing l with
  | nil => exact ⟨rfl, rfl⟩
  | cons i rest ih =>
    have hi := h i List.mem_cons_self
    have hcache : (l.taking t' i).cache = l.cache := by
      rw [cache_taking, hempty i List.mem_cons_self hi, Cache.merge_empty]
    have hloaded : (l.taking t' i).loaded = l.loaded := by
      rw [loaded_taking, if_pos hi]
    obtain ⟨hcache', hloaded'⟩ := ih (l.taking t' i)
      (fun j hj => h j (List.mem_cons_of_mem _ hj)) fun j hj => hempty j (List.mem_cons_of_mem _ hj)
    exact ⟨hcache'.trans hcache, hloaded'.trans hloaded⟩

/-- **A library is the merge of its modules** in the order of their loads, each once, whatever is
loaded in whatever way and whatever happens to the files in between. -/
theorem made_of_loads (store : Store) (c : Conventions) (force : Bool) (start : FileTree)
    (events : List Event) :
    let new := ((create store c force : OnTree Library) start).1
    let log := new.history start events
    let part := contributing log
    let l := (new.live events start).1
    let t := (new.live events start).2
    -- The merged cache, and what the library is made of.
    l.cache = part.foldl (fun cache i => cache.merge .append i.cache) .empty
      ∧ (part.map (·.key)).Nodup
      ∧ (∀ p, ((l.contains p : OnTree Bool) t).1 = decide (t.keyOf p ∈ part.map (·.key)))
      -- Degraded loads leave no trace in it, and only they are tried again.
      ∧ (∀ i ∈ log, i.outcome = .degraded → ∀ (l' : Library) (t' : FileTree),
          (l'.taking t' i).cache = l'.cache ∧ (l'.taking t' i).loaded = l'.loaded)
      ∧ (∀ e, (∀ i ∈ (l.loads e t).1, i.outcome = .degraded) →
          (l.perform e t).1.cache = l.cache ∧ (l.perform e t).1.loaded = l.loaded)
      ∧ (∀ e key, key ∈ (l.loads e t).1.map (·.key)
          ↔ key ∈ e.paths.map t.keyOf ∧ key ∉ part.map (·.key))
      -- The inventory lists what was tried.
      ∧ l.inventory.loadOrder.Nodup
      ∧ ∀ key, key ∈ l.inventory.loadOrder ↔ l.inventory.modules.contains key = true := by
  intro new log part l t
  have h : l.Accounts ([] ++ log) := (Accounts.create store c force start).live events start
  rw [List.nil_append] at h
  refine ⟨h.cache, h.once, fun p => ?_, fun i hi hdegraded l' t' => ?_,
    fun e => l.perform_of_degraded e t, fun e key => ?_, ?_, fun key => ?_⟩
  · rw [contains, bind_apply, keyOf_apply]
    simp only [pure_apply, List.contains_eq_mem, h.mem_loaded]
    rfl
  · rw [cache_taking, loaded_taking, if_pos hdegraded, h.degraded i hi hdegraded,
      Cache.merge_empty]
    exact ⟨rfl, rfl⟩
  · rw [mem_map_key_loads, h.mem_loaded]
  · rw [h.order]
    have hnodup := nodup_map_newcomers id [] (log.map (·.key))
    rwa [List.map_id] at hnodup
  · rw [h.order, h.modules, mem_distinct, decide_eq_true_eq]

end Library

end SchemaGraph
