import SchemaGraph.Proofs.Merge.Plan

/-!
# Merging Keeps Caches Sound

A merge renames handles in definitions, in new schemas and in new variants.  Every field that the
merged cache holds is a field of the base or a renamed field of the incoming cache, and either
kind fits the merged arenas.

- `Cache.mem_heldFields_merge`: where the fields of a merged cache come from
- `Cache.Sound.merge`: one merge keeps soundness
- `Cache.problems_mergeAll_eq_nil`: so does every sequence of merges
-/

namespace SchemaGraph

/-! ## §1 Where definitions come from -/

theorem mem_putDefinition {d e : Definition} {ds : List Definition}
    (h : e ∈ putDefinition d ds) : e = d ∨ e ∈ ds := by
  induction ds with
  | nil => exact .inl (by simpa [putDefinition] using h)
  | cons b bs ih =>
    rw [putDefinition] at h
    split at h
    · -- `b` has the tag and gives way to `d`.
      rcases List.mem_cons.1 h with rfl | h
      · exact .inl rfl
      · exact .inr (List.mem_cons_of_mem _ h)
    · rcases List.mem_cons.1 h with rfl | h
      · exact .inr List.mem_cons_self
      · rcases ih h with rfl | h
        · exact .inl rfl
        · exact .inr (List.mem_cons_of_mem _ h)

/-- A merged definition is one of the base or an incoming one, under either strategy. -/
theorem mem_mergeDefinitions {strategy : MergeStrategy} {base incoming : List Definition}
    {d : Definition} (h : d ∈ mergeDefinitions strategy base incoming) :
    d ∈ base ∨ d ∈ incoming := by
  cases strategy with
  | append => exact List.mem_append.1 h
  | overwrite =>
    -- Each incoming definition is put into what the earlier ones left.
    unfold mergeDefinitions at h
    induction incoming generalizing base with
    | nil => exact .inl h
    | cons e es ih =>
      rw [List.foldl_cons] at h
      rcases ih h with h | h
      · rcases mem_putDefinition h with rfl | h
        · exact .inr List.mem_cons_self
        · exact .inl h
      · exact .inr (List.mem_cons_of_mem _ h)

namespace Cache

variable {base incoming : Cache} {strategy : MergeStrategy}

theorem mem_definitions_merge {d : Definition}
    (h : d ∈ (base.merge strategy incoming).definitions) :
    d ∈ base.definitions ∨ ∃ e ∈ incoming.definitions,
      d = e.relabel (MergePlan.of base incoming).schemaName
        (MergePlan.of base incoming).variantName := by
  rcases mem_mergeDefinitions h with h | h
  · exact .inl h
  · obtain ⟨e, he, rfl⟩ := List.mem_map.1 h
    exact .inr ⟨e, he, rfl⟩

theorem mem_schemas_merge {s : Schema} (h : s ∈ (base.merge strategy incoming).schemas) :
    s ∈ base.schemas ∨ ∃ t ∈ incoming.schemas,
      s = t.relabel (MergePlan.of base incoming).schemaName
        (MergePlan.of base incoming).variantName := by
  rw [merge_schemas] at h
  rcases List.mem_append.1 h with h | h
  · exact .inl h
  · obtain ⟨t, ht, rfl⟩ := List.mem_map.1 h
    exact .inr ⟨t, mem_of_mem_newcomers ht, rfl⟩

theorem mem_variants_merge {v : Variant} (h : v ∈ (base.merge strategy incoming).variants) :
    v ∈ base.variants ∨ ∃ w ∈ incoming.variants,
      v = w.relabel (MergePlan.of base incoming).schemaName
        (MergePlan.of base incoming).variantName := by
  rw [merge_variants] at h
  rcases List.mem_append.1 h with h | h
  · exact .inl h
  · obtain ⟨w, hw, rfl⟩ := List.mem_map.1 h
    exact .inr ⟨w, mem_of_mem_newcomers hw, rfl⟩

/-- **Where fields come from**: a field of the merged cache is a field of the base, or an
incoming field with its handles renamed. -/
theorem mem_heldFields_merge {f : Field}
    (h : f ∈ (base.merge strategy incoming).heldFields) :
    f ∈ base.heldFields ∨ ∃ g ∈ incoming.heldFields,
      f = g.relabel (MergePlan.of base incoming).schemaName
        (MergePlan.of base incoming).variantName := by
  rcases mem_heldFields.1 h with ⟨d, hd, hf⟩ | ⟨s, hs, hf⟩ | ⟨v, hv, hf⟩
  -- Definitions, schemas and variants go the same way: the record is old, or a renamed one.
  · rcases mem_definitions_merge hd with hd | ⟨e, he, rfl⟩
    · exact .inl (mem_heldFields.2 (.inl ⟨d, hd, hf⟩))
    · rw [Definition.relabel_fields] at hf
      obtain ⟨g, hg, rfl⟩ := List.mem_map.1 hf
      exact .inr ⟨g, mem_heldFields.2 (.inl ⟨e, he, hg⟩), rfl⟩
  · rcases mem_schemas_merge hs with hs | ⟨t, ht, rfl⟩
    · exact .inl (mem_heldFields.2 (.inr (.inl ⟨s, hs, hf⟩)))
    · rw [Schema.relabel_fields] at hf
      obtain ⟨g, hg, rfl⟩ := List.mem_map.1 hf
      exact .inr ⟨g, mem_heldFields.2 (.inr (.inl ⟨t, ht, hg⟩)), rfl⟩
  · rcases mem_variants_merge hv with hv | ⟨w, hw, rfl⟩
    · exact .inl (mem_heldFields.2 (.inr (.inr ⟨v, hv, hf⟩)))
    · rw [Variant.relabel_fields] at hf
      obtain ⟨g, hg, rfl⟩ := List.mem_map.1 hf
      exact .inr ⟨g, mem_heldFields.2 (.inr (.inr ⟨w, hw, hg⟩)), rfl⟩

/-! ## §2 One merge -/

/-- Handles that point into the arenas of both caches point into the merged arenas. -/
theorem IndexValid.merge (hbase : base.IndexValid) (hincoming : incoming.IndexValid)
    (strategy : MergeStrategy) : (base.merge strategy incoming).IndexValid := by
  constructor
  case fields =>
    intro f hf
    rcases mem_heldFields_merge hf with hf | ⟨g, hg, rfl⟩
    -- Old handles stay valid because the arenas only grow, new ones because they are renamed.
    · exact (hbase.fields f hf).mono fun _ hg => hg.mono (sizes_le_merge strategy)
    · exact (hincoming.fields g hg).relabel fun _ hg => hg.relabelled
  case variants =>
    intro v hv
    rcases mem_variants_merge hv with hv | ⟨w, hw, rfl⟩
    · have hlt := hbase.variants v hv
      have hle : base.sizes.Le (base.merge strategy incoming).sizes := sizes_le_merge strategy
      exact Int.lt_of_lt_of_le hlt (Int.ofNat_le.2 hle.schemas)
    · rw [Variant.relabel_schemaId]
      exact MergePlan.schemaName_lt (hincoming.variants w hw)

/-- **One merge keeps soundness**, whatever is reused and whatever is new. -/
theorem Sound.merge (hbase : base.Sound) (hincoming : incoming.Sound)
    (strategy : MergeStrategy) : (base.merge strategy incoming).Sound := by
  have hvalid := hbase.toIndexValid.merge hincoming.toIndexValid strategy
  -- Renaming touches handles only, so payloads and names are those of the two caches.
  refine { hvalid with payloads := ?_, tags := ?_, schemaNames := ?_, variantNames := ?_ }
  · intro f hf
    rcases mem_heldFields_merge hf with hf | ⟨g, hg, rfl⟩
    · exact hbase.payloads f hf
    · exact (hincoming.payloads g hg).relabel fun _ hg => hg.relabelled _ _
  · intro d hd
    rcases mem_definitions_merge hd with hd | ⟨e, he, rfl⟩
    · exact hbase.tags d hd
    · exact hincoming.tags e he
  · intro s hs
    rcases mem_schemas_merge hs with hs | ⟨t, ht, rfl⟩
    · exact hbase.schemaNames s hs
    · exact hincoming.schemaNames t ht
  · intro v hv
    rcases mem_variants_merge hv with hv | ⟨w, hw, rfl⟩
    · exact hbase.variantNames v hv
    · exact hincoming.variantNames w hw

/-! ## §3 Sequences of merges -/

/-- The caches of a sequence merged into the base one after the other, each by its strategy. -/
def mergeAll (base : Cache) (steps : List (MergeStrategy × Cache)) : Cache :=
  steps.foldl (fun c step => c.merge step.1 step.2) base

theorem Sound.mergeAll {steps : List (MergeStrategy × Cache)} (hbase : base.Sound)
    (hsteps : ∀ step ∈ steps, step.2.Sound) : (base.mergeAll steps).Sound := by
  induction steps generalizing base with
  | nil => exact hbase
  | cons step steps ih =>
    have hstep : step.2.Sound := hsteps step List.mem_cons_self
    exact ih (hbase.merge hstep step.1) fun s hs => hsteps s (List.mem_cons_of_mem _ hs)

/-- **Merging keeps caches sound**: if validation finds nothing in the base and in the caches of
a sequence, it finds nothing after one of the merges, nothing after all of them, and nothing when
the sequence is merged into the empty cache. -/
theorem problems_mergeAll_eq_nil {base : Cache} {steps : List (MergeStrategy × Cache)}
    (hbase : base.problems = []) (hsteps : ∀ step ∈ steps, step.2.problems = []) :
    (∀ step ∈ steps, (base.merge step.1 step.2).problems = [])
      ∧ (base.mergeAll steps).problems = [] ∧ (base.mergeAll steps).Sound
      ∧ (empty.mergeAll steps).problems = [] := by
  have hbase' : base.Sound := problems_eq_nil_iff.1 hbase
  have hsteps' : ∀ step ∈ steps, step.2.Sound :=
    fun step hstep => problems_eq_nil_iff.1 (hsteps step hstep)
  have hempty : empty.Sound := problems_eq_nil_iff.1 rfl
  refine ⟨fun step hstep => ?_, ?_, hbase'.mergeAll hsteps', ?_⟩
  · exact problems_eq_nil_iff.2 (hbase'.merge (hsteps' step hstep) step.1)
  -- The empty cache is sound, and so is everything that is merged into it.
  · exact problems_eq_nil_iff.2 (hbase'.mergeAll hsteps')
  · exact problems_eq_nil_iff.2 (hempty.mergeAll hsteps')

/-- A small cache: things that glow. -/
def lampCache : Cache where
  definitions :=
    [⟨"ThingDef", "ThingDef", "Def", false, false, "Verse.ThingDef",
      [.polymorphicList "comps" "List<Verse.CompProperties>" 0 [0]]⟩]
  catalog := .empty
  schemas := [⟨"Verse.CompProperties", [.scalar "compClass" "System.Type"]⟩]
  variants := [⟨"CompProperties_Glower", 0, false, [.scalar "radius" "System.Single"]⟩]
  castTable := .empty

/-- An add-on that shares one schema and one variant with `lampCache`, under other handles, and
has new ones that refer to each other; some of them sit in a structure attached to a field. -/
def gadgetCache : Cache where
  definitions :=
    [⟨"ThingDef", "ThingDef", "Def", false, false, "Mod.ThingDef",
      [(Field.nested "holder" "Mod.Holder" noHandle).withChildren
        [.polymorphicList "comps" "List<Verse.CompProperties>" 1 [1, 0],
          .nested "offset" "Mod.Vector" 0]]⟩]
  catalog := .empty
  schemas :=
    [⟨"Mod.Vector", [.nested "scale" "Mod.Vector" 0]⟩,
      ⟨"Verse.CompProperties", [.scalar "compClass" "System.Type"]⟩]
  variants :=
    [⟨"CompProperties_Battery", 0, false, [.nested "offset" "Mod.Vector" 0]⟩,
      ⟨"CompProperties_Glower", 1, false, [.scalar "radius" "System.Single"]⟩]
  castTable := .empty

theorem problems_mergeAll_gadgets :
    lampCache.problems = [] ∧
      (∀ step ∈ [(MergeStrategy.append, gadgetCache), (.overwrite, gadgetCache)],
        step.2.problems = []) ∧
      (lampCache.mergeAll [(.append, gadgetCache), (.overwrite, gadgetCache)]).problems = [] := by
  have hlamp : lampCache.problems = [] := by decide
  have hsteps : ∀ step ∈ [(MergeStrategy.append, gadgetCache), (.overwrite, gadgetCache)],
      step.2.problems = [] := by decide
  exact ⟨hlamp, hsteps, (problems_mergeAll_eq_nil hlamp hsteps).2.1⟩

end Cache

end SchemaGraph
