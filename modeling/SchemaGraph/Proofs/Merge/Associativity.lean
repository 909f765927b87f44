import SchemaGraph.Proofs.Merge.Soundness
import SchemaGraph.Proofs.SortedMap

/-!
# Concatenation is Associative

Three caches may be concatenated from either side.  The two ways settle their plans over different
arenas, but the plan for a concatenation extends the plan for its first part, and after the plan
that formed the concatenation it does what the plan from the left does.

- `MergePlan.agree_concat_left`: the plan for a concatenation on the handles of its first part
- `MergePlan.agree_concat_right`: and on those of its second part
- `Cache.concat_assoc`: both ways give the same cache, handle by handle
-/

namespace SchemaGraph

/-! ## §1 Tables -/

section Tables

theorem unionEntry_eq_insertWith :
    unionEntry = SortedMap.insertWith fun old new =>
      match old with
      | none => new
      | some values => distinct (values ++ new) := by
  funext catalog entry
  unfold unionEntry SortedMap.insertWith
  cases catalog.get? entry.1 <;> rfl

theorem get?_mergeCatalogs (m m' : SortedMap (List String)) (key : String) :
    (mergeCatalogs m m').get? key =
      match m'.get? key with
      | none => m.get? key
      | some new =>
        match m.get? key with
        | none => some new
        | some values => some (distinct (values ++ new)) := by
  rw [mergeCatalogs, unionEntry_eq_insertWith, SortedMap.get?_foldl_insertWith]
  cases m'.get? key <;> cases m.get? key <;> rfl

theorem get?_mergeCasts (m m' : SortedMap String) (key : String) :
    (mergeCasts m m').get? key =
      match m'.get? key with
      | none => m.get? key
      | some new => some new := by
  have hget := SortedMap.get?_foldl_insertWith (fun _ new => new) m m' key
  cases hm : m'.get? key with
  | none => rwa [hm] at hget
  | some new => rwa [hm] at hget

variable {κ : Type} [DecidableEq κ]

theorem distinct_append_distinct (xs ys : List κ) :
    distinct (xs ++ distinct ys) = distinct (xs ++ ys) := by
  unfold distinct
  rw [newcomers_append, newcomers_append, newcomers_newcomers]
  · intro x _ hx
    cases hx
  · intro x _ y _ hxy
    exact hxy

theorem distinct_distinct_append (xs ys : List κ) :
    distinct (distinct xs ++ ys) = distinct (xs ++ ys) := by
  -- A list without repetition is left as it is.
  have hself : newcomers id [] (newcomers id [] xs) = newcomers id [] xs :=
    newcomers_newcomers (fun x _ hx => by cases hx) fun x _ y _ hxy => hxy
  have hkeys : keysWith id [] (newcomers id [] xs) = keysWith id [] xs := by
    rw [keysWith, hself, keysWith]
  unfold distinct
  rw [newcomers_append, newcomers_append, hself, hkeys]

/-- **Catalogs**: a value stays where it was met first, however the lists are grouped. -/
theorem mergeCatalogs_assoc (m₁ m₂ m₃ : SortedMap (List String)) :
    mergeCatalogs (mergeCatalogs m₁ m₂) m₃ = mergeCatalogs m₁ (mergeCatalogs m₂ m₃) := by
  apply SortedMap.ext_get?
  intro key
  -- A key may be in each of the three maps or not.
  simp only [get?_mergeCatalogs]
  cases m₁.get? key <;> cases m₂.get? key <;> cases m₃.get? key <;>
    simp [distinct_append_distinct, distinct_distinct_append]

/-- **Casts**: the last table that has a key decides. -/
theorem mergeCasts_assoc (m₁ m₂ m₃ : SortedMap String) :
    mergeCasts (mergeCasts m₁ m₂) m₃ = mergeCasts m₁ (mergeCasts m₂ m₃) := by
  apply SortedMap.ext_get?
  intro key
  simp only [get?_mergeCasts]
  cases m₂.get? key <;> cases m₃.get? key <;> rfl

end Tables

/-! ## §2 Only valid handles count -/

/-- The two pairs of renamings agree on the handles of arenas of these sizes. -/
structure AgreeIn (sizes : ArenaSizes) (σ ρ σ' ρ' : Handle → Handle) : Prop where
  schemas : ∀ h : Handle, h < sizes.schemas → σ h = σ' h
  variants : ∀ h : Handle, 0 ≤ h → h < sizes.variants → ρ h = ρ' h

variable {sizes : ArenaSizes} {σ ρ σ' ρ' : Handle → Handle}

theorem relabelAll_congr {fs : List Field} (hagree : AgreeIn sizes σ ρ σ' ρ')
    (hfs : ∀ f ∈ fs, f.Everywhere (Field.HandlesIn sizes)) :
    Field.relabelAll σ ρ fs = Field.relabelAll σ' ρ' fs := by
  simp only [Field.relabelAll_eq_map]
  refine List.map_congr_left fun f hf => Field.relabel_congr ((hfs f hf).mono fun g hg => ?_)
  refine ⟨hagree.schemas _ hg.schema, fun v hv => ?_⟩
  exact hagree.variants v (hg.variants v hv).1 (hg.variants v hv).2

theorem shapes_congr {fs : List Field}
    (hagree : ∀ h : Handle, 0 ≤ h → h < sizes.variants → ρ h = ρ' h)
    (hfs : ∀ f ∈ fs, f.Everywhere (Field.HandlesIn sizes)) :
    Field.shapes ρ fs = Field.shapes ρ' fs := by
  simp only [Field.shapes_eq_map]
  refine List.map_congr_left fun f hf => Field.shape_congr ((hfs f hf).mono fun g hg v hv => ?_)
  exact hagree v (hg.variants v hv).1 (hg.variants v hv).2

namespace Cache.IndexValid

variable {c : Cache}

theorem schema_shape_congr (hc : c.IndexValid)
    (hagree : ∀ h : Handle, 0 ≤ h → h < c.sizes.variants → ρ h = ρ' h) {s : Schema}
    (hs : s ∈ c.schemas) : s.shape ρ = s.shape ρ' := by
  have hfs : ∀ f ∈ s.fields, f.Everywhere (Field.HandlesIn c.sizes) :=
    fun f hf => hc.fields f (mem_heldFields.2 (.inr (.inl ⟨s, hs, hf⟩)))
  rw [Schema.shape, Schema.shape, shapes_congr hagree hfs]

theorem schema_relabel_congr (hc : c.IndexValid) (hagree : AgreeIn c.sizes σ ρ σ' ρ')
    {s : Schema} (hs : s ∈ c.schemas) : s.relabel σ ρ = s.relabel σ' ρ' := by
  have hfs : ∀ f ∈ s.fields, f.Everywhere (Field.HandlesIn c.sizes) :=
    fun f hf => hc.fields f (mem_heldFields.2 (.inr (.inl ⟨s, hs, hf⟩)))
  rw [Schema.relabel, Schema.relabel, relabelAll_congr hagree hfs]

theorem variant_relabel_congr (hc : c.IndexValid) (hagree : AgreeIn c.sizes σ ρ σ' ρ')
    {v : Variant} (hv : v ∈ c.variants) : v.relabel σ ρ = v.relabel σ' ρ' := by
  have hfs : ∀ f ∈ v.fields, f.Everywhere (Field.HandlesIn c.sizes) :=
    fun f hf => hc.fields f (mem_heldFields.2 (.inr (.inr ⟨v, hv, hf⟩)))
  have hschema : σ v.schemaId = σ' v.schemaId := hagree.schemas _ (hc.variants v hv)
  rw [Variant.relabel, Variant.relabel, relabelAll_congr hagree hfs, hschema]

theorem definition_relabel_congr (hc : c.IndexValid) (hagree : AgreeIn c.sizes σ ρ σ' ρ')
    {d : Definition} (hd : d ∈ c.definitions) : d.relabel σ ρ = d.relabel σ' ρ' := by
  have hfs : ∀ f ∈ d.fields, f.Everywhere (Field.HandlesIn c.sizes) :=
    fun f hf => hc.fields f (mem_heldFields.2 (.inl ⟨d, hd, hf⟩))
  rw [Definition.relabel, Definition.relabel, relabelAll_congr hagree hfs]

end Cache.IndexValid

/-! ## §3 The plan for a concatenation -/

namespace MergePlan

variable {a b c : Cache}

theorem concat_variants (b c : Cache) :
    (b.concat c).variants =
      combined (·.fullName) (·.fullName)
        (Variant.relabel (MergePlan.of b c).schemaName (MergePlan.of b c).variantName)
        b.variants c.variants := rfl

theorem concat_schemas (b c : Cache) :
    (b.concat c).schemas =
      combined (Schema.shape id) (incomingShape b c)
        (Schema.relabel (MergePlan.of b c).schemaName (MergePlan.of b c).variantName)
        b.schemas c.schemas := rfl

/-- Absorbing `c` after `b`, the short names of the two are known. -/
theorem variantKeys_concat_left (a b c : Cache) :
    variantKeys (a.concat b) c = keysWith (·.fullName) (variantKeys a b) c.variants := by
  have hkeys : (a.concat b).variants.map (·.fullName) = variantKeys a b :=
    (Cache.variantKeys_eq .append).symm
  rw [variantKeys, hkeys]

theorem schemaKeys_concat_left (a b c : Cache) :
    schemaKeys (a.concat b) c =
      keysWith (incomingShape (a.concat b) c) (schemaKeys a b) c.schemas := by
  have hkeys : (a.concat b).schemas.map (Schema.shape id) = schemaKeys a b :=
    (Cache.schemaKeys_eq .append).symm
  rw [schemaKeys, hkeys]

/-- Short names survive renaming. -/
theorem regrouping_variants (σ ρ : Handle → Handle) (vs ws : List Variant) :
    Regrouping (·.fullName) (·.fullName) (·.fullName) (·.fullName) (·.fullName) id
      (Variant.relabel σ ρ) vs ws :=
  ⟨fun _ _ => rfl, fun _ _ => rfl, fun _ _ => rfl, fun _ _ => rfl⟩

/-- A variant of the first part goes where it goes without the second part. -/
theorem variantName_concat_left {h : Handle} (hnonneg : 0 ≤ h) (hlt : h < b.sizes.variants) :
    (MergePlan.of a b).variantName h = (MergePlan.of a (b.concat c)).variantName h := by
  obtain ⟨i, hi, rfl⟩ := exists_position hnonneg hlt
  have hregroup := regrouping_variants (MergePlan.of b c).schemaName
    (MergePlan.of b c).variantName b.variants c.variants
  exact (hregroup.placement_left (a.variants.map (·.fullName)) hi).symm

/-- A variant of the second part goes where its place in the concatenation goes. -/
theorem variantName_concat_right {h : Handle} (hnonneg : 0 ≤ h) (hlt : h < c.sizes.variants) :
    (MergePlan.of (a.concat b) c).variantName h =
      (MergePlan.of a (b.concat c)).variantName ((MergePlan.of b c).variantName h) := by
  obtain ⟨i, hi, rfl⟩ := exists_position hnonneg hlt
  have hregroup := regrouping_variants (MergePlan.of b c).schemaName
    (MergePlan.of b c).variantName b.variants c.variants
  -- Seen from the left, the names of `a` and `b` are the known ones.
  rw [variantName_eq (a.concat b) c, variantKeys_concat_left]
  exact (hregroup.placement_right (a.variants.map (·.fullName)) hi).symm

/-- Shapes over the merged variants are coarser than shapes over the variants of a part. -/
theorem regrouping_schemas (a : Cache) (hb : b.IndexValid) (hc : c.IndexValid) :
    Regrouping (Schema.shape id) (incomingShape a b) (incomingShape b c)
      (incomingShape (a.concat b) c) (incomingShape a (b.concat c))
      (Schema.shape (MergePlan.of a (b.concat c)).variantName)
      (Schema.relabel (MergePlan.of b c).schemaName (MergePlan.of b c).variantName)
      b.schemas c.schemas := by
  -- Shapes depend on variants only, and where those go is settled already.
  have hwhole : ∀ s ∈ b.schemas, incomingShape a (b.concat c) s = incomingShape a b s := by
    intro s hs
    exact (hb.schema_shape_congr (fun _ => variantName_concat_left) hs).symm
  have hlast : ∀ s ∈ c.schemas, incomingShape (a.concat b) c s =
      s.shape ((MergePlan.of a (b.concat c)).variantName ∘ (MergePlan.of b c).variantName) := by
    intro s hs
    exact hc.schema_shape_congr (fun _ => variantName_concat_right) hs
  -- Each part of the regrouping is one renaming after another, told as one.
  refine ⟨fun s hs => ?_, hwhole, fun s hs => ?_, fun s hs => ?_⟩
  · rw [Schema.shape_shape, ← hwhole s hs]
    rfl
  · rw [hlast s hs, incomingShape, Schema.shape_shape]
  · rw [hlast s hs, incomingShape, Schema.shape_relabel]

/-- A schema of the first part goes where it goes without the second part. -/
theorem schemaName_concat_left (hb : b.IndexValid) (hc : c.IndexValid) {h : Handle}
    (hlt : h < b.sizes.schemas) :
    (MergePlan.of a b).schemaName h = (MergePlan.of a (b.concat c)).schemaName h := by
  by_cases hneg : h < 0
  · rw [schemaName_of_neg hneg, schemaName_of_neg hneg]
  · obtain ⟨i, hi, rfl⟩ := exists_position (Int.not_lt.1 hneg) hlt
    exact ((regrouping_schemas a hb hc).placement_left (a.schemas.map (Schema.shape id)) hi).symm

/-- A schema of the second part goes where its place in the concatenation goes. -/
theorem schemaName_concat_right (hb : b.IndexValid) (hc : c.IndexValid) {h : Handle}
    (hlt : h < c.sizes.schemas) :
    (MergePlan.of (a.concat b) c).schemaName h =
      (MergePlan.of a (b.concat c)).schemaName ((MergePlan.of b c).schemaName h) := by
  by_cases hneg : h < 0
  · rw [schemaName_of_neg hneg, schemaName_of_neg hneg, schemaName_of_neg hneg]
  · obtain ⟨i, hi, rfl⟩ := exists_position (Int.not_lt.1 hneg) hlt
    have hregroup := regrouping_schemas a hb hc
    rw [schemaName_eq (a.concat b) c, schemaKeys_concat_left]
    exact (hregroup.placement_right (a.schemas.map (Schema.shape id)) hi).symm

/-- **The first part**: the plan for a concatenation extends the plan for its first part. -/
theorem agree_concat_left (a : Cache) (hb : b.IndexValid) (hc : c.IndexValid) :
    AgreeIn b.sizes (MergePlan.of a b).schemaName (MergePlan.of a b).variantName
      (MergePlan.of a (b.concat c)).schemaName (MergePlan.of a (b.concat c)).variantName :=
  ⟨fun _ => schemaName_concat_left hb hc, fun _ => variantName_concat_left⟩

/-- **The second part**: two renamings in a row do what the one from the left does. -/
theorem agree_concat_right (a : Cache) (hb : b.IndexValid) (hc : c.IndexValid) :
    AgreeIn c.sizes (MergePlan.of (a.concat b) c).schemaName
      (MergePlan.of (a.concat b) c).variantName
      ((MergePlan.of a (b.concat c)).schemaName ∘ (MergePlan.of b c).schemaName)
      ((MergePlan.of a (b.concat c)).variantName ∘ (MergePlan.of b c).variantName) :=
  ⟨fun _ => schemaName_concat_right hb hc, fun _ => variantName_concat_right⟩

end MergePlan

/-! ## §4 Associativity -/

namespace Cache

variable {a b c : Cache}

/-- Renaming the second part with the first does what renaming the parts by themselves does. -/
private theorem append_map_regroup {α : Type} {fromLeft onFirst onSecond onBoth : α → α}
    (xs : List α) {ys zs : List α} (hys : ∀ y ∈ ys, onFirst y = onBoth y)
    (hzs : ∀ z ∈ zs, fromLeft z = onBoth (onSecond z)) :
    xs ++ ys.map onFirst ++ zs.map fromLeft = xs ++ (ys ++ zs.map onSecond).map onBoth := by
  have hys' : ys.map onFirst = ys.map onBoth := List.map_congr_left hys
  have hzs' : zs.map fromLeft = (zs.map onSecond).map onBoth := by
    rw [List.map_map]
    exact List.map_congr_left hzs
  rw [hys', hzs', List.map_append, List.append_assoc]

theorem definitions_concat_assoc (a : Cache) (hb : b.IndexValid) (hc : c.IndexValid) :
    ((a.concat b).concat c).definitions = (a.concat (b.concat c)).definitions := by
  apply append_map_regroup
  · intro d hd
    exact hb.definition_relabel_congr (MergePlan.agree_concat_left a hb hc) hd
  · intro d hd
    rw [Definition.relabel_relabel]
    exact hc.definition_relabel_congr (MergePlan.agree_concat_right a hb hc) hd

/-- The newcomers of the concatenation are those of its parts. -/
theorem schemas_concat_assoc (a : Cache) (hb : b.IndexValid) (hc : c.IndexValid) :
    ((a.concat b).concat c).schemas = (a.concat (b.concat c)).schemas := by
  have hfromLeft : (MergePlan.of (a.concat b) c).addedSchemas =
      newcomers (MergePlan.incomingShape (a.concat b) c) (MergePlan.schemaKeys a b) c.schemas := by
    rw [MergePlan.addedSchemas_eq, schemaKeys_eq .append]
    rfl
  -- On the other side what is new is new to `b` or to `c`, and the latter is renamed by the merge
  -- of both before.
  have hboth : (MergePlan.of a (b.concat c)).addedSchemas =
      (MergePlan.of a b).addedSchemas ++ (MergePlan.of (a.concat b) c).addedSchemas.map
        (Schema.relabel (MergePlan.of b c).schemaName (MergePlan.of b c).variantName) := by
    rw [MergePlan.addedSchemas_eq, MergePlan.concat_schemas,
      (MergePlan.regrouping_schemas a hb hc).newcomers_combined, hfromLeft]
    rfl
  have hparts : (a.concat (b.concat c)).schemas = a.schemas ++
      (MergePlan.of a (b.concat c)).addedSchemas.map (Schema.relabel
        (MergePlan.of a (b.concat c)).schemaName (MergePlan.of a (b.concat c)).variantName) := rfl
  rw [hparts, hboth]
  -- What is left is that both ways rename what they append alike.
  apply append_map_regroup
  · intro s hs
    exact hb.schema_relabel_congr (MergePlan.agree_concat_left a hb hc) (mem_of_mem_newcomers hs)
  · intro s hs
    rw [Schema.relabel_relabel]
    exact hc.schema_relabel_congr (MergePlan.agree_concat_right a hb hc) (mem_of_mem_newcomers hs)

theorem variants_concat_assoc (a : Cache) (hb : b.IndexValid) (hc : c.IndexValid) :
    ((a.concat b).concat c).variants = (a.concat (b.concat c)).variants := by
  have hfromLeft : (MergePlan.of (a.concat b) c).addedVariants =
      newcomers (·.fullName) (MergePlan.variantKeys a b) c.variants := by
    rw [MergePlan.addedVariants_eq, variantKeys_eq .append]
    rfl
  -- As for schemas, what is new splits in two; variants are told apart by their names alone.
  have hboth : (MergePlan.of a (b.concat c)).addedVariants =
      (MergePlan.of a b).addedVariants ++ (MergePlan.of (a.concat b) c).addedVariants.map
        (Variant.relabel (MergePlan.of b c).schemaName (MergePlan.of b c).variantName) := by
    rw [MergePlan.addedVariants_eq, MergePlan.concat_variants,
      (MergePlan.regrouping_variants _ _ b.variants c.variants).newcomers_combined, hfromLeft]
    rfl
  have hparts : (a.concat (b.concat c)).variants = a.variants ++
      (MergePlan.of a (b.concat c)).addedVariants.map (Variant.relabel
        (MergePlan.of a (b.concat c)).schemaName (MergePlan.of a (b.concat c)).variantName) := rfl
  rw [hparts, hboth]
  apply append_map_regroup
  · intro v hv
    exact hb.variant_relabel_congr (MergePlan.agree_concat_left a hb hc) (mem_of_mem_newcomers hv)
  · intro v hv
    rw [Variant.relabel_relabel]
    exact hc.variant_relabel_congr (MergePlan.agree_concat_right a hb hc) (mem_of_mem_newcomers hv)

theorem concat_concat (a : Cache) (hb : b.IndexValid) (hc : c.IndexValid) :
    (a.concat b).concat c = a.concat (b.concat c) := by
  rw [Cache.mk.injEq]
  refine ⟨definitions_concat_assoc a hb hc, ?_, schemas_concat_assoc a hb hc,
    variants_concat_assoc a hb hc, ?_⟩
  · exact mergeCatalogs_assoc a.catalog b.catalog c.catalog
  · exact mergeCasts_assoc a.castTable b.castTable c.castTable

/-- Each cache of the list can be taken inside, since what was concatenated so far is valid. -/
theorem foldl_concat (a : Cache) {b : Cache} (hb : b.IndexValid) {cs : List Cache}
    (hcs : ∀ c ∈ cs, c.IndexValid) :
    cs.foldl concat (a.concat b) = a.concat (cs.foldl concat b) := by
  induction cs generalizing b with
  | nil => rfl
  | cons c cs ih =>
    have hc : c.IndexValid := hcs c List.mem_cons_self
    -- What was concatenated so far is valid again, so the next cache can be taken inside.
    have hbc : (b.concat c).IndexValid := hb.merge hc .append
    rw [List.foldl_cons, List.foldl_cons, concat_concat a hb hc]
    exact ih hbc fun d hd => hcs d (List.mem_cons_of_mem _ hd)

/-- **Concatenation is associative**: three caches without dangling handles give one cache from
either side, and caches that were merged before may be merged as their parts, one by one.  The
first cache may even have dangling handles: its records are kept as they are. -/
theorem concat_assoc {a b c : Cache} (hb : b.IndexValid) (hc : c.IndexValid) :
    (a.concat b).concat c = a.concat (b.concat c)
      ∧ ∀ cs : List Cache, (∀ d ∈ cs, d.IndexValid) →
          a.concat (cs.foldl concat (b.concat c)) = (b :: c :: cs).foldl concat a := by
  refine ⟨concat_concat a hb hc, fun cs hcs => ?_⟩
  have hbc : (b.concat c).IndexValid := hb.merge hc .append
  rw [← foldl_concat a hbc hcs, ← concat_concat a hb hc]
  rfl

/-- A cache that repeats itself: two schemas of one name, one of them twice, and two variants of
one name, which `gadgetCache` has with other fields. -/
def patchCache : Cache where
  definitions :=
    [⟨"PatchDef", "ThingDef", "Def", false, false, "Mod.PatchDef",
      [.polymorphicList "comps" "List<Verse.CompProperties>" 2 [1, 0, 2]]⟩]
  catalog := SortedMap.empty.insert "Def" ["A", "A"]
  schemas :=
    [⟨"Mod.Vector", [.nested "scale" "Mod.Vector" 1]⟩,
      ⟨"Mod.Vector", [.scalar "x" "System.Single"]⟩,
      ⟨"Mod.Vector", [.nested "scale" "Mod.Vector" 0]⟩]
  variants :=
    [⟨"CompProperties_Glower", 1, false, [.nested "offset" "Mod.Vector" 2]⟩,
      ⟨"CompProperties_Battery", noHandle, false, []⟩,
      ⟨"CompProperties_Glower", 0, false, []⟩]
  castTable := SortedMap.empty.insert "k" "Mod.Vector"

theorem concat_assoc_patch :
    gadgetCache.IndexValid ∧ patchCache.IndexValid ∧
      (lampCache.concat gadgetCache).concat patchCache =
        lampCache.concat (gadgetCache.concat patchCache) := by
  have hgadget : gadgetCache.IndexValid :=
    (problems_eq_nil_iff.1 (by decide : gadgetCache.problems = [])).toIndexValid
  have hpatch : patchCache.IndexValid :=
    (problems_eq_nil_iff.1 (by decide : patchCache.problems = [])).toIndexValid
  exact ⟨hgadget, hpatch, (concat_assoc hgadget hpatch).1⟩

end Cache

end SchemaGraph
