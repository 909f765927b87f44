import Mathlib.Data.List.Basic
import Mathlib.Data.List.Nodup
import SchemaGraph.Proofs.Library.Loads
import SchemaGraph.Proofs.Store.Transparency

/-!
# Load Order and Merge Order

The inventory lists a module where it was tried first, and the cache of a library has it where it
was merged.  These are different places for a module that could not be loaded at first: later it is
merged behind everything that has come in between, and listed in front of it.

- `Library.Overtaken`: a module that is listed before another one and merged after it
- `Library.pairwise_appearance_iff`: first appearances and merges have the same order exactly if no
  module is overtaken
- `Library.listing_live`: the modules of a library as its inventory lists them
- `Library.listed_ne_mergeOrder_mending`: a library with a module that overtakes another one
-/

namespace SchemaGraph

open OnTree

namespace Library

variable {l : Library} {log : List Incoming} {i j : Nat}

/-! ## §1 Listed modules and merged modules -/

/-- The modules of a library as its inventory lists them. -/
def listed (l : Library) : List String := l.inventory.loadOrder.filter (· ∈ l.loaded)

/-- The modules that loads have merged, in the order of the merges. -/
def mergeOrder (log : List Incoming) : List String := (contributing log).map (·.key)

/-- The cache with which a module was merged. -/
def cacheOf (log : List Incoming) (key : String) : Cache :=
  (((contributing log).find? (·.key = key)).map (·.cache)).getD .empty

/-- The caches of some modules, merged one after the other. -/
def mergeIn (log : List Incoming) (keys : List String) : Cache :=
  keys.foldl (fun cache key => cache.merge .append (cacheOf log key)) .empty

/-- **Overtaken**: a module could not be loaded at first and was loaded later, when another module
had been loaded that was not tried before the first one. -/
def Overtaken (log : List Incoming) : Prop :=
  ∃ (i j k : Nat) (failed other late : Incoming), i < j ∧ j < k
    ∧ log[i]? = some failed ∧ log[j]? = some other ∧ log[k]? = some late
    ∧ failed.outcome = .degraded ∧ other.outcome ≠ .degraded ∧ late.outcome ≠ .degraded
    ∧ late.key = failed.key ∧ other.key ∉ (log.take i).map (·.key)

/-- Each module that was merged has the cache that it was merged with. -/
theorem cacheOf_key (hkeys : (mergeOrder log).Nodup) {i : Incoming} (hi : i ∈ contributing log) :
    cacheOf log i.key = i.cache := by
  obtain ⟨i', hfind⟩ : ∃ i', (contributing log).find? (·.key = i.key) = some i' := by
    rw [← Option.isSome_iff_exists, List.find?_isSome]
    exact ⟨i, hi, decide_eq_true rfl⟩
  have hkey : i'.key = i.key := by simpa using List.find?_some hfind
  obtain rfl := List.inj_on_of_nodup_map hkeys (List.mem_of_find?_eq_some hfind) hi hkey
  rw [cacheOf, hfind]
  rfl

/-- Merging the modules in the order of their loads. -/
theorem mergeIn_mergeOrder (hkeys : (mergeOrder log).Nodup) :
    mergeIn log (mergeOrder log) =
      (contributing log).foldl (fun cache i => cache.merge .append i.cache) .empty := by
  rw [mergeIn, mergeOrder, List.foldl_map]
  refine List.foldl_ext _ _ _ fun cache i hi => ?_
  rw [cacheOf_key hkeys hi]

/-! ## §2 First appearances -/

section Appearance

variable {a b : Incoming}

/-- Where a module appears first among the loads. -/
def appearance (log : List Incoming) (key : String) : Nat := (log.map (·.key)).idxOf key

/-- No load of a module comes before it appears. -/
theorem appearance_le (h : log[j]? = some a) : appearance log a.key ≤ j := by
  have hmem : a.key ∈ (log.map (·.key)).take (j + 1) := by
    rw [← List.map_take]
    refine List.mem_map_of_mem (List.mem_of_getElem? (i := j) ?_)
    rw [List.getElem?_take_of_succ, h]
  have hkey := List.mem_of_mem_take hmem
  exact Nat.lt_succ_iff.1 ((List.mem_take_iff_idxOf_lt hkey).1 hmem)

theorem le_appearance_iff (h : log[j]? = some a) :
    i ≤ appearance log a.key ↔ a.key ∉ (log.take i).map (·.key) := by
  have hkey : a.key ∈ log.map (·.key) := List.mem_map_of_mem (List.mem_of_getElem? h)
  rw [List.map_take, List.mem_take_iff_idxOf_lt hkey, Nat.not_lt]
  rfl

/-- There is a load where a module appears first. -/
theorem exists_appearance (h : log[j]? = some a) :
    ∃ first, log[appearance log a.key]? = some first ∧ first.key = a.key := by
  have hkey : a.key ∈ log.map (·.key) := List.mem_map_of_mem (List.mem_of_getElem? h)
  have hlt : appearance log a.key < (log.map (·.key)).length := List.idxOf_lt_length_of_mem hkey
  have hat : (log.map (·.key))[appearance log a.key]? = some a.key := by
    rw [List.getElem?_eq_getElem hlt]
    exact congrArg some (List.getElem_idxOf hlt)
  rw [List.getElem?_map] at hat
  exact Option.map_eq_some_iff.1 hat

/-- Different modules do not appear first in the same place. -/
theorem key_eq_of_appearance_eq (ha : log[i]? = some a) (hb : log[j]? = some b)
    (h : appearance log a.key = appearance log b.key) : a.key = b.key := by
  obtain ⟨first, hfirst, hkey⟩ := exists_appearance ha
  obtain ⟨first', hfirst', hkey'⟩ := exists_appearance hb
  rw [h, hfirst'] at hfirst
  obtain rfl := Option.some.inj hfirst
  exact hkey.symm.trans hkey'

/-- A property of any two merged loads, in order. -/
theorem pairwise_mergeOrder_iff {r : String → String → Prop} :
    (mergeOrder log).Pairwise r ↔
      ∀ (j k : Nat) (a b : Incoming), j < k → log[j]? = some a → log[k]? = some b →
        a.outcome ≠ .degraded → b.outcome ≠ .degraded → r a.key b.key := by
  rw [mergeOrder, List.pairwise_map, contributing, List.pairwise_filter, List.pairwise_iff_getElem]
  simp only [decide_eq_true_eq]
  constructor
  · intro h j k a b hjk ha hb
    obtain ⟨hj, rfl⟩ := List.getElem?_eq_some_iff.1 ha
    obtain ⟨hk, rfl⟩ := List.getElem?_eq_some_iff.1 hb
    exact h j k hj hk hjk
  · intro h j k hj hk hjk
    exact h j k _ _ hjk (List.getElem?_eq_getElem hj) (List.getElem?_eq_getElem hk)

/-- **First appearances** come in the order of the merges exactly if no module is overtaken. -/
theorem pairwise_appearance_iff (hkeys : (mergeOrder log).Nodup) :
    (mergeOrder log).Pairwise (fun x y => appearance log x < appearance log y) ↔
      ¬ Overtaken log := by
  have hne := pairwise_mergeOrder_iff.1 hkeys
  rw [pairwise_mergeOrder_iff]
  constructor
  -- A module that is overtaken appears before the one that is merged before it.
  · rintro h ⟨i, j, k, failed, other, late, hij, hjk, hfailed, hother, hlate, -, hmerged, hmerged',
      hkey, hnew⟩
    have hlt := h j k other late hjk hother hlate hmerged hmerged'
    have hle : appearance log late.key ≤ i := hkey ▸ appearance_le hfailed
    have hge : i ≤ appearance log other.key := (le_appearance_iff hother).2 hnew
    omega
  · intro h j k other late hjk hother hlate hmerged hmerged'
    by_contra hnot
    -- The later module appeared first, by a load that can only have failed.
    obtain ⟨failed, hfailed, hkey⟩ := exists_appearance hlate
    have hdiffer : appearance log other.key ≠ appearance log late.key := by
      intro heq
      have hsame := key_eq_of_appearance_eq hother hlate heq
      exact hne j k other late hjk hother hlate hmerged hmerged' hsame
    have hle := appearance_le hother
    have hfailedOutcome : failed.outcome = .degraded := by
      by_contra hmerged''
      exact hne _ k failed late (by omega) hfailed hlate hmerged'' hmerged' hkey
    exact h ⟨_, j, k, failed, other, late, by omega, hjk, hfailed, hother, hlate, hfailedOutcome,
      hmerged, hmerged', hkey.symm, (le_appearance_iff hother).1 (by omega)⟩

end Appearance

/-! ## §3 The order of a library -/

/-- **How the modules of a library are listed**, and when this is the order of the merges. -/
structure Listing (l : Library) (log : List Incoming) : Prop where
  /-- The cache is that of the merges, in their order. -/
  merged : l.cache = mergeIn log (mergeOrder log)
  /-- Every module that was merged is listed, once. -/
  perm : l.listed.Perm (mergeOrder log)
  /-- The modules are listed in the order in which they first appeared. -/
  sorted : l.listed.Pairwise fun x y => appearance log x < appearance log y
  inOrder : l.listed = mergeOrder log ↔ ¬ Overtaken log
  /-- Merging them as they are listed makes the same cache then. -/
  reproduces : ¬ Overtaken log → mergeIn log l.listed = l.cache

theorem Accounts.listing (h : l.Accounts log) : l.Listing log := by
  have hkeys : (mergeOrder log).Nodup := h.once
  -- Both orders have the same modules, none of them twice, so they differ in their order only.
  have hmem : ∀ key, key ∈ l.listed ↔ key ∈ mergeOrder log := by
    intro key
    rw [listed, List.mem_filter, h.order, mem_distinct, decide_eq_true_eq, h.mem_loaded]
    refine and_iff_right_of_imp fun hkey => ?_
    exact ((List.filter_sublist).map _).subset hkey
  have hsorted : l.listed.Pairwise fun x y => appearance log x < appearance log y := by
    rw [listed, h.order]
    exact (pairwise_distinct _).filter _
  have hperm : l.listed.Perm (mergeOrder log) := by
    refine (List.perm_ext_iff_of_nodup ?_ hkeys).2 hmem
    rw [listed, h.order]
    exact (nodup_distinct _).filter _
  have hmerged : l.cache = mergeIn log (mergeOrder log) := by
    rw [mergeIn_mergeOrder hkeys, h.cache]
  -- A list that is sorted by first appearance is the only one of its members that is.
  have hinOrder : l.listed = mergeOrder log ↔ ¬ Overtaken log := by
    rw [← pairwise_appearance_iff hkeys]
    constructor
    · intro heq
      rwa [heq] at hsorted
    · intro horder
      exact hperm.eq_of_pairwise (fun _ _ _ _ hlt hgt => absurd hgt (Nat.lt_asymm hlt)) hsorted
        horder
  exact ⟨hmerged, hperm, hsorted, hinOrder, fun h => by rw [hinOrder.2 h, hmerged]⟩

/-- **Load order and merge order**, for a new library and whatever is loaded in whatever way and
happens to the files in between. -/
theorem listing_live (store : Store) (c : Conventions) (force : Bool) (start : FileTree)
    (events : List Event) :
    let new := ((create store c force : OnTree Library) start).1
    (new.live events start).1.Listing (new.history start events) := by
  intro new
  have h : (new.live events start).1.Accounts ([] ++ new.history start events) :=
    (Accounts.create store c force start).live events start
  rw [List.nil_append] at h
  exact h.listing

/-- A module with one definition type of the given name. -/
def oneType (name : String) : Bytes :=
  let base := Json.obj [("full_name", .str "Def")]
  let type := Json.obj [("full_name", .str name), ("base", .str "Def")]
  Bytes.ofText (Json.obj [("types", .arr [base, type])]).compact

/-- One of two modules is no module yet. -/
def tornTree : FileTree :=
  ((FileTree.empty ["modules"]).put ["modules", "A.json"] (.file [0x62] 0)).put
    ["modules", "B.json"] (.file (oneType "B") 0)

/-- It has been repaired. -/
def mendedTree : FileTree := tornTree.put ["modules", "A.json"] (.file (oneType "A") 0)

/-- The library has no modules yet. -/
def bareLibrary : Library :=
  ((create ⟨"cache"⟩ Store.bellConventions false : OnTree Library) tornTree).1

/-- The torn module is tried, the other one is loaded, and then the mended one. -/
def mending : List Event :=
  [.addModule "A.json", .addModule "B.json", .change mendedTree, .addModule "A.json"]

/-- **The mended module is listed first and was merged last**, and merging the two as they are
listed makes another cache. -/
theorem listed_ne_mergeOrder_mending :
    let l := (bareLibrary.live mending tornTree).1
    let log := bareLibrary.history tornTree mending
    l.listed = ["/modules/A.json", "/modules/B.json"]
      ∧ mergeOrder log = ["/modules/B.json", "/modules/A.json"]
      ∧ l.listed ≠ mergeOrder log
      ∧ mergeIn log l.listed ≠ l.cache := by
  intro l log
  obtain ⟨hlisted, hmerged, htags, htags'⟩ : l.listed = ["/modules/A.json", "/modules/B.json"]
      ∧ mergeOrder log = ["/modules/B.json", "/modules/A.json"]
      ∧ (mergeIn log l.listed).definitions.map (·.tagName) = ["A", "B"]
      ∧ l.cache.definitions.map (·.tagName) = ["B", "A"] := by
    decide +kernel
  -- The two orders are compared by evaluation; the caches differ in the order of their definitions.
  have hne : l.listed ≠ mergeOrder log := by
    rw [hlisted, hmerged]
    decide
  have hcache : mergeIn log l.listed ≠ l.cache := by
    intro heq
    rw [heq, htags'] at htags
    exact absurd htags (by decide)
  exact ⟨hlisted, hmerged, hne, hcache⟩

end Library

end SchemaGraph
