import SchemaGraph.Proofs.Library.Decoding
import SchemaGraph.Proofs.Module.Decoding

/-!
# Reading Undoes Writing

Caches, persisted caches, module manifests, inventories and settings are read back from their
documents as they were.  Documents as values may nest to any depth; texts and files are read as
far as a document may nest.

- `ReadsBack`: what is said of each sort of record
- `reading_undoes_writing`: all records, and the files of caches
-/

namespace SchemaGraph

open Document Json

/-! ## §1 Records and their texts -/

/-- Reading gives back what was written: of the document itself and, if it nests no deeper than
documents may, of its compact and of its pretty text. -/
structure ReadsBack {α : Type} (read : Json → Option α) (write : α → Json) (x : α) : Prop where
  document : read (write x) = some x
  compact : (write x).height ≤ maxDepth → (parse? (write x).compact).bind read = some x
  pretty : (write x).height ≤ maxDepth → (parse? (write x).pretty).bind read = some x

theorem Recovers.readsBack {α : Type} {read : Json → Option α} {write : α → Json} {x : α}
    (h : Recovers read write x) : ReadsBack read write x where
  document := h.read_write
  compact hheight := by
    rw [h.exact_write.parse?_compact hheight, Option.bind_some, h.read_write]
  pretty hheight := by
    rw [h.exact_write.parse?_pretty hheight, Option.bind_some, h.read_write]

/-! ## §2 Sample records -/

/-- A field whose children have a list of children themselves, one of them an empty one. -/
def nestedField : Field :=
  (Field.polymorphicList "comps" "List<Verse.CompProperties>" 0 [0, -1]).withChildren
    [(Field.ofKind .metadata "empty" "").withChildren [],
      ((Field.enumerated "größe" "Size" []).withHint "Class=\"\\\n\"").withChildren
        [Field.scalar "𝄞" "System.String"]]

/-- A cache with a definition, a schema, a variant and both tables. -/
def nestedCache : Cache where
  definitions := [⟨"ThingDef", "ThingDef", "Def", false, true, "Verse.ThingDef", [nestedField]⟩]
  catalog := (SortedMap.empty.insert "Verse.ThingDef" ["Lamp", ""]).insert "A" []
  schemas := [⟨"Verse.CompProperties", [nestedField]⟩]
  variants := [⟨"CompProperties", 0, true, []⟩]
  castTable := SortedMap.empty.insert "Verse.Wrapper" "Verse.ThingDef"

/-- The cache as it is persisted. -/
def nestedPersisted : PersistedCache where
  formatVersion := 1
  fingerprint := ⟨"/modules/A.json", 0xFFFFFFFFFFFFFFFF, -1, "ab"⟩
  conventionsDigest := ""
  generatedAt := "now"
  cache := nestedCache

/-- An inventory with a module that could not be read. -/
def nestedInventory : Inventory where
  toolVersion := "0.1.0"
  updatedAt := "now"
  modules := SortedMap.empty.insert "A" ⟨none, .degraded, "now", true, 0, 0, 0⟩
  loadOrder := ["A"]

theorem inRange_nestedField : nestedField.InRange := by
  have hnone : noHandle.InRange := ⟨by decide, by decide⟩
  have hleaf : (Field.scalar "𝄞" "System.String").InRange :=
    Field.everywhere_of_leaf rfl ⟨hnone, nofun⟩
  -- The handles of the field fit, and so do those of its children, one of which has a child.
  refine .node nestedField ⟨⟨by decide, by decide⟩, ?_⟩ fun c hc => ?_
  · have hids : ∀ v ∈ ([0, -1] : List Handle), -0x80000000 ≤ v ∧ v ≤ 0x7FFFFFFF := by decide
    exact hids
  · rcases List.mem_cons.1 hc with rfl | hc
    · exact .node _ ⟨hnone, nofun⟩ nofun
    · obtain rfl := List.mem_singleton.1 hc
      refine .node _ ⟨hnone, nofun⟩ fun d hd => ?_
      obtain rfl := List.mem_singleton.1 hd
      exact hleaf

theorem inRange_nestedCache : nestedCache.InRange where
  definitions := by simpa [nestedCache] using inRange_nestedField
  schemas := by simpa [nestedCache] using inRange_nestedField
  variants v hv := by
    obtain rfl := List.mem_singleton.1 hv
    exact ⟨⟨by decide, by decide⟩, nofun⟩

/-! ## §3 All records -/

/-- **Reading undoes writing**: records whose numbers have the sizes of their fields are read back
from their documents and texts, and the cache of a file from that file, whichever of the two forms
was written. -/
theorem reading_undoes_writing :
    (∀ c : Cache, c.InRange → ReadsBack Cache.read? Cache.toJson c) ∧
      (∀ p : PersistedCache, p.InRange → ReadsBack PersistedCache.read? PersistedCache.toJson p) ∧
      (∀ m : ModuleManifest, ReadsBack ModuleManifest.read? ModuleManifest.toJson m) ∧
      (∀ i : Inventory, i.InRange → ReadsBack Inventory.read? Inventory.toJson i) ∧
      (∀ s : LibrarySettings, s.InRange →
        ReadsBack LibrarySettings.read? LibrarySettings.toJson s) ∧
      (∀ (c : Cache) (path : Path) (t t' : FileTree), c.InRange → c.toJson.height ≤ maxDepth →
        (c.save path : Task OnTree Unit) t = (.ok (), t') →
        (Cache.load path : Task OnTree Cache) t' = (.ok c, t')) ∧
      (∀ (p : PersistedCache) (path : Path) (t t' : FileTree), p.InRange →
        p.toJson.height ≤ maxDepth → (p.save path : Task OnTree Unit) t = (.ok (), t') →
        (Cache.load path : Task OnTree Cache) t' = (.ok p.cache, t')) := by
  refine ⟨fun c hc => (Cache.recovers hc).readsBack,
    fun p hp => (PersistedCache.recovers hp).readsBack, fun m => m.recovers.readsBack,
    fun i hi => (Inventory.recovers hi).readsBack,
    fun s hs => (LibrarySettings.recovers hs).readsBack, ?_, ?_⟩
  · intro c path t t' hrange hheight hsave
    exact Cache.load_of_save hrange hheight hsave
  · intro p path t t' hrange hheight hsave
    exact Cache.load_of_save_persisted hrange hheight hsave

theorem reading_undoes_writing_nested :
    nestedCache.InRange ∧ nestedCache.toJson.height ≤ maxDepth ∧
      Cache.read? nestedCache.toJson = some nestedCache ∧
      (parse? nestedCache.toJson.pretty).bind Cache.read? = some nestedCache ∧
      nestedPersisted.InRange ∧ nestedPersisted.toJson.height ≤ maxDepth ∧
      (parse? nestedPersisted.toJson.compact).bind PersistedCache.read? = some nestedPersisted ∧
      nestedInventory.InRange ∧ Inventory.read? nestedInventory.toJson = some nestedInventory ∧
      LibrarySettings.InRange { baseModule := "A.json", jobs := 4 } ∧
      LibrarySettings.read? (LibrarySettings.toJson { baseModule := "A.json", jobs := 4 }) =
        some { baseModule := "A.json", jobs := 4 } ∧
      (∃ t, (nestedCache.save "cache.json" : Task OnTree Unit) (.empty ["tmp"]) = (.ok (), t) ∧
        (Cache.load "cache.json" : Task OnTree Cache) t = (.ok nestedCache, t)) ∧
      ∃ t, (nestedPersisted.save "out/cache.gz" : Task OnTree Unit) (.empty ["tmp"]) =
          (.ok (), t) ∧
        (Cache.load "out/cache.gz" : Task OnTree Cache) t = (.ok nestedCache, t) := by
  obtain ⟨hcache, hpersisted, -, hinventory, hsettings, hbare, hstored⟩ := reading_undoes_writing
  have hheight : nestedCache.toJson.height ≤ maxDepth := by decide
  have hheight' : nestedPersisted.toJson.height ≤ maxDepth := by decide
  have hpersistedRange : nestedPersisted.InRange :=
    ⟨by decide, ⟨by decide, by decide, by decide⟩, inRange_nestedCache⟩
  have hinventoryRange : nestedInventory.InRange := by
    intro e he
    obtain rfl := List.mem_singleton.1 he
    exact ⟨nofun, by decide, by decide, by decide⟩
  have hsettingsRange : LibrarySettings.InRange { baseModule := "A.json", jobs := 4 } := by
    unfold LibrarySettings.InRange
    decide
  let plain := (nestedCache.save "cache.json" : Task OnTree Unit) (.empty ["tmp"])
  let packed := (nestedPersisted.save "out/cache.gz" : Task OnTree Unit) (.empty ["tmp"])
  have hplain : plain = (.ok (), plain.2) := rfl
  have hpacked : packed = (.ok (), packed.2) := rfl
  refine ⟨inRange_nestedCache, hheight, (hcache _ inRange_nestedCache).document,
    (hcache _ inRange_nestedCache).pretty hheight, hpersistedRange, hheight',
    (hpersisted _ hpersistedRange).compact hheight', hinventoryRange,
    (hinventory _ hinventoryRange).document, hsettingsRange, (hsettings _ hsettingsRange).document,
    ⟨plain.2, hplain, hbare _ _ _ _ inRange_nestedCache hheight hplain⟩,
    ⟨packed.2, hpacked, hstored _ _ _ _ hpersistedRange hheight' hpacked⟩⟩

end SchemaGraph
