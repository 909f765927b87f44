import SchemaGraph.Library.Inventory
import SchemaGraph.Library.Settings
import SchemaGraph.Proofs.Store.Decoding

/-!
# Inventories and Settings Read Back

Reading the document of an inventory or of the settings of a library gives the inventory or the
settings.

- `Inventory.recovers`: inventories, with the entries of modules that could not be read
- `LibrarySettings.recovers`: settings with their conventions
-/

namespace SchemaGraph

open Document Json

/-! ## §1 Inventories -/

/-- Every number is in the range of what it is read as. -/
structure InventoryEntry.InRange (e : InventoryEntry) : Prop where
  fingerprint : ∀ f ∈ e.fingerprint, f.InRange
  definitions : e.definitions ≤ 0xFFFFFFFFFFFFFFFF
  schemas : e.schemas ≤ 0xFFFFFFFFFFFFFFFF
  variants : e.variants ≤ 0xFFFFFFFFFFFFFFFF

theorem InventoryEntry.recovers {e : InventoryEntry} (hrange : e.InRange) :
    Recovers InventoryEntry.read? InventoryEntry.toJson e := by
  have hfingerprint : ∀ f ∈ e.fingerprint, Recovers Fingerprint.read? Fingerprint.toJson f :=
    fun f hf => Fingerprint.recovers (hrange.fingerprint f hf)
  have houtcome : Recovers (wordOf? Outcome.ofWord?) (fun o => .str o.word) e.outcome :=
    .word (by cases e.outcome <;> rfl)
  have hdefinitions : Recovers (nat64? : Json → Option Nat) (fun n => .int n) e.definitions :=
    .naturalIn hrange.definitions (Nat.le_refl _)
  have hschemas : Recovers (nat64? : Json → Option Nat) (fun n => .int n) e.schemas :=
    .naturalIn hrange.schemas (Nat.le_refl _)
  have hvariants : Recovers (nat64? : Json → Option Nat) (fun n => .int n) e.variants :=
    .naturalIn hrange.variants (Nat.le_refl _)
  -- The fingerprint is left out if there is none, so the entries are told part by part.
  have hdocument : e.toJson = .obj (entriesOf ["fingerprint", "outcome", "loaded_at",
      "namespace_prefix", "definitions", "schemas", "variants"]
      [e.fingerprint.map Fingerprint.toJson, some (.str e.outcome.word), some (.str e.loadedAt),
        some (.bool e.namespacePrefix), some (.int e.definitions), some (.int e.schemas),
        some (.int e.variants)]) := by
    rw [toJson, optionalEntry_eq]
    simp [entriesOf]
  refine ⟨?_, ?_⟩
  · rw [hdocument]
    refine exact_entriesOf _ ?_
    simp only [List.forall_mem_cons]
    exact ⟨Recovers.exact_map hfingerprint, by simp, by simp, by simp,
      by simpa using hdefinitions.exact_write, by simpa using hschemas.exact_write,
      by simpa using hvariants.exact_write, List.forall_mem_nil _⟩
  -- Reading looks up each key in these entries and finds the part that was written there.
  · rw [InventoryEntry.read?, hdocument, fields?_entriesOf rfl (by decide)]
    simp only [required_some, Recovers.optional hfingerprint (by simp [Fingerprint.toJson]),
      houtcome.read_write, hdefinitions.read_write, hschemas.read_write, hvariants.read_write,
      (Recovers.text _).read_write, (Recovers.flag _).read_write, Option.bind_eq_bind,
      Option.bind_some]
    rfl

/-- Every number of every entry is in the range of what it is read as. -/
def Inventory.InRange (i : Inventory) : Prop := ∀ e ∈ i.modules.entries, e.2.InRange

/-- **Inventories** are recovered. -/
theorem Inventory.recovers {i : Inventory} (hrange : i.InRange) :
    Recovers Inventory.read? Inventory.toJson i := by
  have hmodules : Recovers (mapOf? InventoryEntry.read?) (SortedMap.toJson InventoryEntry.toJson)
      i.modules := .map fun e he => InventoryEntry.recovers (hrange e he)
  have horder := Recovers.texts i.loadOrder
  have hfields : fields? ["tool_version", "updated_at", "modules", "load_order"] i.toJson =
      some [some (.str i.toolVersion), some (.str i.updatedAt),
        some (i.modules.toJson InventoryEntry.toJson), some (Field.textsToJson i.loadOrder)] := rfl
  refine ⟨.obj (by simp [hmodules.exact_write, horder.exact_write]), ?_⟩
  rw [Inventory.read?, hfields]
  simp only [required_some, defaulted_some, (Recovers.text _).read_write, hmodules.read_write,
    horder.read_write, Option.bind_eq_bind, Option.bind_some]
  rfl

/-! ## §2 Settings -/

theorem Conventions.recovers (c : Conventions) :
    Recovers Conventions.read? Conventions.toJson c := by
  have htexts := fun xs => (Recovers.texts xs).exact_write
  have hfields : fields? keys c.toJson =
      some [some (.str c.definitionBase), some (.str c.registryMarker),
        some (.str c.localizationHandleMarker), some (.str c.mustLocalizeMarker),
        some (.str c.universalRoot), some (Field.textsToJson c.bannedNamespaces),
        some (Field.textsToJson c.scalarTypes), some (Field.textsToJson c.scalarShortNames),
        some (.str c.propertiesLead), some (.str c.componentTail), some (.bool c.keepsNamespace),
        some (.bool c.includesAbstract)] := rfl
  refine ⟨.obj (by simp [keys, htexts]), ?_⟩
  -- All keys are there, so none of the defaults is used.
  rw [Conventions.read?, hfields]
  simp only [defaulted_some, (Recovers.text _).read_write, (Recovers.flag _).read_write,
    (Recovers.texts _).read_write, Option.bind_eq_bind, Option.bind_some]
  rfl

/-- The number of jobs is in the range of what it is read as. -/
def LibrarySettings.InRange (s : LibrarySettings) : Prop := s.jobs ≤ 0xFFFFFFFFFFFFFFFF

/-- **Settings** are recovered. -/
theorem LibrarySettings.recovers {s : LibrarySettings} (hrange : s.InRange) :
    Recovers LibrarySettings.read? LibrarySettings.toJson s := by
  have haddons := Recovers.texts s.addons
  have hjobs : Recovers (nat64? : Json → Option Nat) (fun n => .int n) s.jobs :=
    .naturalIn hrange (Nat.le_refl _)
  have hconventions := s.conventions.recovers
  have hfields : fields? ["base_module", "addons", "cache_dir", "jobs", "extraction"] s.toJson =
      some [some (.str s.baseModule), some (Field.textsToJson s.addons),
        some (.str s.cacheDirectory), some (.int s.jobs), some s.conventions.toJson] := rfl
  refine ⟨.obj ?_, ?_⟩
  · simp [haddons.exact_write, hjobs.exact_write, hconventions.exact_write]
  · rw [LibrarySettings.read?, hfields]
    simp only [required_some, defaulted_some, (Recovers.text _).read_write, haddons.read_write,
      hjobs.read_write, hconventions.read_write, Option.bind_eq_bind, Option.bind_some]
    rfl

end SchemaGraph
