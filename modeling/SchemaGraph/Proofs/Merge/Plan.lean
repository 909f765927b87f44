import SchemaGraph.Merge
import SchemaGraph.Proofs.Merge.Interning
import SchemaGraph.Proofs.Validation

/-!
# What a Merge Plan Promises

The plan of a merge is settled before anything is appended.  This module shows that it describes
the arenas that result: the keys it counts positions in are the keys of the merged arenas, so
every renamed handle points at an entry with the key of the one it stands for.

- `MergePlan.variantName_natCast`, `MergePlan.schemaName_natCast`: where a valid handle goes
- `Cache.variantKeys_eq`, `Cache.schemaKeys_eq`: the predicted keys are those of the merged cache
- `Field.HandlesIn.relabelled`: a field without dangling handles has none after the merge
-/

namespace SchemaGraph

variable (base incoming : Cache)

/-! ## §1 The keys of a plan -/

namespace MergePlan

/-- What an incoming schema is recognized by: its shape over the merged variants. -/
def incomingShape : Schema → Schema := Schema.shape (MergePlan.of base incoming).variantName

/-- The short names in the merged variant arena. -/
def variantKeys : List String :=
  keysWith (·.fullName) (base.variants.map (·.fullName)) incoming.variants

/-- The shapes in the merged schema arena. -/
def schemaKeys : List Schema :=
  keysWith (incomingShape base incoming) (base.schemas.map (Schema.shape id)) incoming.schemas

theorem addedVariants_eq :
    (MergePlan.of base incoming).addedVariants =
      newcomers (·.fullName) (base.variants.map (·.fullName)) incoming.variants := rfl

theorem addedSchemas_eq :
    (MergePlan.of base incoming).addedSchemas =
      newcomers (incomingShape base incoming) (base.schemas.map (Schema.shape id))
        incoming.schemas := rfl

/-- Variants are placed by short name. -/
theorem variantName_eq :
    (MergePlan.of base incoming).variantName =
      (placement (variantKeys base incoming) (incoming.variants.map (·.fullName))).apply := rfl

/-- Schemas are placed by shape. -/
theorem schemaName_eq :
    (MergePlan.of base incoming).schemaName =
      (placement (schemaKeys base incoming)
        (incoming.schemas.map (incomingShape base incoming))).apply := rfl

variable {base incoming}

theorem schemaName_of_neg {h : Handle} (hneg : h < 0) :
    (MergePlan.of base incoming).schemaName h = h := HandleMap.apply_of_neg _ hneg

/-- A variant goes to the first merged variant of its short name. -/
theorem variantName_natCast {i : Nat} (hi : i < incoming.variants.length) :
    (MergePlan.of base incoming).variantName (i : Int) =
      ((variantKeys base incoming).idxOf incoming.variants[i].fullName : Int) := by
  have hi' : i < (incoming.variants.map (·.fullName)).length := by simpa using hi
  rw [variantName_eq, HandleMap.apply_placement _ _ hi', List.getElem_map]

/-- A schema goes to the first merged schema of its shape. -/
theorem schemaName_natCast {i : Nat} (hi : i < incoming.schemas.length) :
    (MergePlan.of base incoming).schemaName (i : Int) =
      ((schemaKeys base incoming).idxOf
        (incomingShape base incoming incoming.schemas[i]) : Int) := by
  have hi' : i < (incoming.schemas.map (incomingShape base incoming)).length := by simpa using hi
  rw [schemaName_eq, HandleMap.apply_placement _ _ hi', List.getElem_map]

theorem key_mem_variantKeys {v : Variant} (hv : v ∈ incoming.variants) :
    v.fullName ∈ variantKeys base incoming := by
  unfold variantKeys
  exact key_mem_keysWith _ hv

theorem key_mem_schemaKeys {s : Schema} (hs : s ∈ incoming.schemas) :
    incomingShape base incoming s ∈ schemaKeys base incoming := key_mem_keysWith _ hs

end MergePlan

/-! ## §2 The merged arenas -/

namespace Cache

variable {base incoming} (strategy : MergeStrategy)

theorem merge_schemas :
    (base.merge strategy incoming).schemas =
      base.schemas ++ (MergePlan.of base incoming).addedSchemas.map
        (Schema.relabel (MergePlan.of base incoming).schemaName
          (MergePlan.of base incoming).variantName) := rfl

theorem merge_variants :
    (base.merge strategy incoming).variants =
      base.variants ++ (MergePlan.of base incoming).addedVariants.map
        (Variant.relabel (MergePlan.of base incoming).schemaName
          (MergePlan.of base incoming).variantName) := rfl

/-- The short names that a plan counts positions in are those of the merged cache. -/
theorem variantKeys_eq :
    MergePlan.variantKeys base incoming =
      (base.merge strategy incoming).variants.map (·.fullName) := by
  rw [merge_variants, List.map_append, List.map_map]
  rfl

/-- The shapes that a plan counts positions in are those of the merged cache. -/
theorem schemaKeys_eq :
    MergePlan.schemaKeys base incoming =
      (base.merge strategy incoming).schemas.map (Schema.shape id) := by
  have hshape : ∀ s : Schema,
      (Schema.shape id ∘ Schema.relabel (MergePlan.of base incoming).schemaName
        (MergePlan.of base incoming).variantName) s = MergePlan.incomingShape base incoming s :=
    fun s => Schema.shape_relabel _ _ id s
  rw [merge_schemas, List.map_append, List.map_map, List.map_congr_left fun s _ => hshape s]
  rfl

theorem length_variantKeys :
    (MergePlan.variantKeys base incoming).length =
      (base.merge strategy incoming).variants.length := by
  rw [variantKeys_eq strategy, List.length_map]

theorem length_schemaKeys :
    (MergePlan.schemaKeys base incoming).length =
      (base.merge strategy incoming).schemas.length := by
  rw [schemaKeys_eq strategy, List.length_map]

/-- Merging only appends to the arenas. -/
theorem sizes_le_merge : base.sizes.Le (base.merge strategy incoming).sizes := by
  constructor
  · show base.schemas.length ≤ (base.merge strategy incoming).schemas.length
    rw [merge_schemas, List.length_append]
    exact Nat.le_add_right _ _
  · show base.variants.length ≤ (base.merge strategy incoming).variants.length
    rw [merge_variants, List.length_append]
    exact Nat.le_add_right _ _

end Cache

/-! ## §3 Renamed handles -/

variable {base incoming} {strategy : MergeStrategy}

namespace MergePlan

theorem variantName_mem {h : Handle} (hnonneg : 0 ≤ h) (hlt : h < incoming.sizes.variants) :
    0 ≤ (MergePlan.of base incoming).variantName h ∧
      (MergePlan.of base incoming).variantName h <
        (base.merge strategy incoming).sizes.variants := by
  obtain ⟨i, hi, rfl⟩ := exists_position hnonneg hlt
  rw [variantName_natCast hi]
  -- The short name is among the merged ones, so its position is in the merged arena.
  have hmem : incoming.variants[i].fullName ∈ variantKeys base incoming :=
    key_mem_variantKeys (List.getElem_mem hi)
  have hidx := List.idxOf_lt_length_of_mem hmem
  rw [Cache.length_variantKeys strategy] at hidx
  exact ⟨Int.natCast_nonneg _, Int.ofNat_lt.2 hidx⟩

theorem schemaName_lt {h : Handle} (hlt : h < incoming.sizes.schemas) :
    (MergePlan.of base incoming).schemaName h <
      (base.merge strategy incoming).sizes.schemas := by
  by_cases hneg : h < 0
  · -- No schema stays no schema.
    rw [schemaName_of_neg hneg]
    exact Int.lt_of_lt_of_le hneg (Int.natCast_nonneg _)
  · obtain ⟨i, hi, rfl⟩ := exists_position (Int.not_lt.1 hneg) hlt
    rw [schemaName_natCast hi]
    have hmem : incomingShape base incoming incoming.schemas[i] ∈ schemaKeys base incoming :=
      key_mem_schemaKeys (List.getElem_mem hi)
    -- The key of the incoming schema is among the merged ones, so its position is in the arena.
    have hidx := List.idxOf_lt_length_of_mem hmem
    rw [Cache.length_schemaKeys strategy] at hidx
    exact Int.ofNat_lt.2 hidx

end MergePlan

namespace Field

/-- **No handle dangles after renaming**: the handles of an incoming field are renamed into the
merged arenas. -/
theorem HandlesIn.relabelled {f : Field} (h : f.HandlesIn incoming.sizes) :
    (f.relabel (MergePlan.of base incoming).schemaName
      (MergePlan.of base incoming).variantName).HandlesIn
        (base.merge strategy incoming).sizes := by
  refine ⟨?_, ?_⟩
  · rw [relabel_schemaId]
    exact MergePlan.schemaName_lt h.schema
  · intro v hv
    rw [relabel_variantIds] at hv
    cases hids : f.variantIds with
    | none => simp [hids] at hv
    | some ids =>
      -- Each new variant handle comes from an old one.
      rw [hids, Option.map_some, Option.getD_some] at hv
      obtain ⟨w, hw, rfl⟩ := List.mem_map.1 hv
      have hmem : w ∈ f.variantIds.getD [] := by rwa [hids, Option.getD_some]
      exact MergePlan.variantName_mem (h.variants w hmem).1 (h.variants w hmem).2

/-- Renaming changes neither the kind nor which payload there is. -/
theorem PayloadFits.relabelled {f : Field} (σ ρ : Handle → Handle) (h : f.PayloadFits) :
    (f.relabel σ ρ).PayloadFits := by
  refine ⟨?_, ?_⟩
  · rw [relabel_kind, relabel_enumValues]
    exact h.enumValues
  · rw [relabel_kind, relabel_variantIds, Option.isSome_map]
    exact h.variantIds

end Field

end SchemaGraph
