import SchemaGraph.Proofs.Model.FieldTree
import SchemaGraph.Validation

/-!
# Sound Caches

What validation checks, said without validation: every handle points into its arena, every field
has exactly the payload of its kind, at every depth, and no name is blank.

- `Cache.IndexValid`: no handle dangles
- `Cache.Sound`: `IndexValid`, and payloads and names fit as well
- `Cache.problems_eq_nil_iff`: validation finds nothing exactly in a sound cache
- `Cache.emptyName_of_mem_problems`: where handles and payloads fit, only names can be wrong
-/

namespace SchemaGraph

/-! ## §1 Fields that fit -/

namespace Field

/-- The handles of the field itself: its schema is missing or in the arena, and each of its
variants is in the arena. -/
structure HandlesIn (sizes : ArenaSizes) (f : Field) : Prop where
  schema : f.schemaId < sizes.schemas
  variants : ∀ v ∈ f.variantIds.getD [], 0 ≤ v ∧ v < sizes.variants

/-- The payload of the field is the one of its kind. -/
structure PayloadFits (f : Field) : Prop where
  enumValues : f.kind = .enumerated ↔ f.enumValues.isSome
  variantIds : f.kind = .polymorphicList ↔ f.variantIds.isSome

/-- Handles and payload of the field fit. -/
def Fits (sizes : ArenaSizes) (f : Field) : Prop := f.HandlesIn sizes ∧ f.PayloadFits

end Field

/-- The second pair of arenas is at least as large as the first. -/
structure ArenaSizes.Le (a b : ArenaSizes) : Prop where
  schemas : a.schemas ≤ b.schemas
  variants : a.variants ≤ b.variants

theorem ArenaSizes.Le.refl (a : ArenaSizes) : a.Le a := ⟨Nat.le_refl _, Nat.le_refl _⟩

theorem ArenaSizes.Le.trans {a b c : ArenaSizes} (hab : a.Le b) (hbc : b.Le c) : a.Le c :=
  ⟨Nat.le_trans hab.schemas hbc.schemas, Nat.le_trans hab.variants hbc.variants⟩

namespace Field

variable {sizes sizes' : ArenaSizes} {f : Field}

/-- Arenas only grow, so handles stay valid. -/
theorem HandlesIn.mono (h : f.HandlesIn sizes) (hle : sizes.Le sizes') : f.HandlesIn sizes' := by
  have hs : (sizes.schemas : Int) ≤ sizes'.schemas := Int.ofNat_le.2 hle.schemas
  have hv : (sizes.variants : Int) ≤ sizes'.variants := Int.ofNat_le.2 hle.variants
  exact ⟨Int.lt_of_lt_of_le h.schema hs, fun v hmem =>
    ⟨(h.variants v hmem).1, Int.lt_of_lt_of_le (h.variants v hmem).2 hv⟩⟩

end Field

/-! ## §2 Sound caches -/

namespace Cache

/-- The fields that a cache holds directly: those of its definitions, schemas and variants. -/
def heldFields (c : Cache) : List Field :=
  c.definitions.flatMap (·.fields) ++ c.schemas.flatMap (·.fields)
    ++ c.variants.flatMap (·.fields)

theorem mem_heldFields {c : Cache} {f : Field} :
    f ∈ c.heldFields ↔ (∃ d ∈ c.definitions, f ∈ d.fields) ∨ (∃ s ∈ c.schemas, f ∈ s.fields)
      ∨ ∃ v ∈ c.variants, f ∈ v.fields := by
  simp only [heldFields, List.mem_append, List.mem_flatMap, or_assoc]

/-- **No handle dangles**: at every depth a schema handle is negative or in the arena, and a
variant handle is in the arena. -/
structure IndexValid (c : Cache) : Prop where
  fields : ∀ f ∈ c.heldFields, f.Everywhere (Field.HandlesIn c.sizes)
  variants : ∀ v ∈ c.variants, v.schemaId < c.schemas.length

/-- **A sound cache**: handles point into the arenas, payloads fit, and names are not blank. -/
structure Sound (c : Cache) : Prop extends IndexValid c where
  payloads : ∀ f ∈ c.heldFields, f.Everywhere Field.PayloadFits
  tags : ∀ d ∈ c.definitions, Text.isBlankText d.tagName = false
  schemaNames : ∀ s ∈ c.schemas, Text.isBlankText s.fullName = false
  variantNames : ∀ v ∈ c.variants, Text.isBlankText v.fullName = false

end Cache

/-! ## §3 What the checks find -/

theorem checkSchemaHandle_eq_nil {sizes : ArenaSizes} {location : String} {h : Handle} :
    checkSchemaHandle sizes location h = [] ↔ h < sizes.schemas := by
  unfold checkSchemaHandle
  split <;> simp_all

theorem checkVariantHandle_eq_nil {sizes : ArenaSizes} {location : String} {h : Handle} :
    checkVariantHandle sizes location h = [] ↔ 0 ≤ h ∧ h < sizes.variants := by
  unfold checkVariantHandle Handle
  split <;> simp <;> omega

theorem checkName_eq_nil {location name : String} :
    checkName location name = [] ↔ Text.isBlankText name = false := by
  unfold checkName
  split <;> simp_all

theorem checkField_eq_nil {sizes : ArenaSizes} {location : String} {f : Field} :
    checkField sizes location f = [] ↔ f.Fits sizes := by
  unfold checkField
  simp only [List.append_eq_nil_iff, checkSchemaHandle_eq_nil, List.flatMap_eq_nil_iff,
    checkVariantHandle_eq_nil, ite_eq_left_iff, List.cons_ne_nil, imp_false, Decidable.not_not]
  constructor
  · rintro ⟨⟨⟨hs, he⟩, hp⟩, hv⟩
    exact ⟨⟨hs, hv⟩, he, hp⟩
  · rintro ⟨⟨hs, hv⟩, he, hp⟩
    exact ⟨⟨⟨hs, he⟩, hp⟩, hv⟩

/-- The checks of a field come before those of its children. -/
theorem checkTree_eq (sizes : ArenaSizes) (parent : String) (f : Field) :
    checkTree sizes parent f =
      checkField sizes (parent ++ "/" ++ f.name) f
        ++ checkTrees sizes (parent ++ "/" ++ f.name) f.childList := by
  obtain ⟨name, declaredType, kind, enumValues, variantIds, schemaId, children, hint, l, m⟩ := f
  cases children <;> simp [checkTree, checkTrees, checkField, Field.childList]

theorem checkTrees_eq_flatMap (sizes : ArenaSizes) (parent : String) (fs : List Field) :
    checkTrees sizes parent fs = fs.flatMap (checkTree sizes parent) := by
  induction fs with
  | nil => rfl
  | cons f fs ih => rw [checkTrees, ih, List.flatMap_cons]

theorem checkTree_eq_nil {sizes : ArenaSizes} {parent : String} {f : Field} :
    checkTree sizes parent f = [] ↔ f.Everywhere (Field.Fits sizes) := by
  induction f using Field.inductionOn generalizing parent with
  | node f ih =>
    rw [checkTree_eq, List.append_eq_nil_iff, checkField_eq_nil, checkTrees_eq_flatMap,
      List.flatMap_eq_nil_iff, Field.everywhere_iff]
    constructor
    · rintro ⟨here, below⟩
      exact ⟨here, fun c hc => (ih c hc).1 (below c hc)⟩
    · rintro ⟨here, below⟩
      exact ⟨here, fun c hc => (ih c hc).2 (below c hc)⟩

theorem checkTrees_eq_nil {sizes : ArenaSizes} {parent : String} {fs : List Field} :
    checkTrees sizes parent fs = [] ↔ ∀ f ∈ fs, f.Everywhere (Field.Fits sizes) := by
  simp only [checkTrees_eq_flatMap, List.flatMap_eq_nil_iff, checkTree_eq_nil]

/-! ## §4 Validation -/

namespace Cache

variable {c : Cache}

theorem checkDefinition_eq_nil {sizes : ArenaSizes} {d : Definition} :
    checkDefinition sizes d = [] ↔
      Text.isBlankText d.tagName = false ∧ ∀ f ∈ d.fields, f.Everywhere (Field.Fits sizes) := by
  simp only [checkDefinition, List.append_eq_nil_iff, checkName_eq_nil, checkTrees_eq_nil]

theorem checkSchema_eq_nil {sizes : ArenaSizes} {position : Nat} {s : Schema} :
    checkSchema sizes position s = [] ↔
      Text.isBlankText s.fullName = false ∧ ∀ f ∈ s.fields, f.Everywhere (Field.Fits sizes) := by
  simp only [checkSchema, List.append_eq_nil_iff, checkName_eq_nil, checkTrees_eq_nil]

theorem checkVariant_eq_nil {sizes : ArenaSizes} {position : Nat} {v : Variant} :
    checkVariant sizes position v = [] ↔
      Text.isBlankText v.fullName = false ∧ v.schemaId < sizes.schemas
        ∧ ∀ f ∈ v.fields, f.Everywhere (Field.Fits sizes) := by
  simp only [checkVariant, List.append_eq_nil_iff, checkName_eq_nil, checkSchemaHandle_eq_nil,
    checkTrees_eq_nil, and_assoc]

private theorem flatten_mapIdx_eq_nil {α β : Type} {check : Nat → α → List β} {Good : α → Prop}
    (hcheck : ∀ i x, check i x = [] ↔ Good x) (xs : List α) :
    (xs.mapIdx check).flatten = [] ↔ ∀ x ∈ xs, Good x := by
  simp only [List.flatten_eq_nil_iff, List.mem_mapIdx, forall_exists_index,
    List.forall_mem_iff_forall_getElem]
  constructor
  · intro h i hi
    exact (hcheck i xs[i]).1 (h _ i hi rfl)
  · rintro h _ i hi rfl
    exact (hcheck i xs[i]).2 (h i hi)

theorem checkSchemas_eq_nil {sizes : ArenaSizes} {ss : List Schema} :
    (ss.mapIdx (checkSchema sizes)).flatten = [] ↔ ∀ s ∈ ss,
      Text.isBlankText s.fullName = false ∧ ∀ f ∈ s.fields, f.Everywhere (Field.Fits sizes) := by
  apply flatten_mapIdx_eq_nil
  intro i s
  exact checkSchema_eq_nil

theorem checkVariants_eq_nil {sizes : ArenaSizes} {vs : List Variant} :
    (vs.mapIdx (checkVariant sizes)).flatten = [] ↔ ∀ v ∈ vs,
      Text.isBlankText v.fullName = false ∧ v.schemaId < sizes.schemas
        ∧ ∀ f ∈ v.fields, f.Everywhere (Field.Fits sizes) := by
  apply flatten_mapIdx_eq_nil
  intro i v
  exact checkVariant_eq_nil

/-- **Validation is exact**: it finds nothing exactly in a sound cache. -/
theorem problems_eq_nil_iff : c.problems = [] ↔ c.Sound := by
  simp only [problems, List.append_eq_nil_iff, List.flatMap_eq_nil_iff, checkDefinition_eq_nil,
    checkSchemas_eq_nil, checkVariants_eq_nil]
  constructor
  · -- What the checks of the records say about their fields, said of all fields at once.
    rintro ⟨⟨hd, hs⟩, hv⟩
    have hfields : ∀ f ∈ c.heldFields, f.Everywhere (Field.Fits c.sizes) := by
      intro f hf
      rcases mem_heldFields.1 hf with ⟨d, hmem, hf⟩ | ⟨s, hmem, hf⟩ | ⟨v, hmem, hf⟩
      · exact (hd d hmem).2 f hf
      · exact (hs s hmem).2 f hf
      · exact (hv v hmem).2.2 f hf
    exact {
      fields := fun f hf => (Field.everywhere_and.1 (hfields f hf)).1
      variants := fun v hmem => (hv v hmem).2.1
      payloads := fun f hf => (Field.everywhere_and.1 (hfields f hf)).2
      tags := fun d hmem => (hd d hmem).1
      schemaNames := fun s hmem => (hs s hmem).1
      variantNames := fun v hmem => (hv v hmem).1 }
  · -- And back to the records that hold the fields.
    intro h
    have hfits : ∀ f ∈ c.heldFields, f.Everywhere (Field.Fits c.sizes) :=
      fun f hf => Field.everywhere_and.2 ⟨h.fields f hf, h.payloads f hf⟩
    refine ⟨⟨fun d hd => ⟨h.tags d hd, fun f hf => ?_⟩,
      fun s hs => ⟨h.schemaNames s hs, fun f hf => ?_⟩⟩,
      fun v hv => ⟨h.variantNames v hv, h.variants v hv, fun f hf => ?_⟩⟩
    · exact hfits f (mem_heldFields.2 (.inl ⟨d, hd, hf⟩))
    · exact hfits f (mem_heldFields.2 (.inr (.inl ⟨s, hs, hf⟩)))
    · exact hfits f (mem_heldFields.2 (.inr (.inr ⟨v, hv, hf⟩)))

/-- Where fields fit and the schemas of variants are in the arena, only names can be wrong. -/
theorem emptyName_of_mem_problems (hfields : ∀ f ∈ c.heldFields, f.Everywhere (Field.Fits c.sizes))
    (hvariants : ∀ v ∈ c.variants, v.schemaId < c.sizes.schemas) {problem : Problem}
    (h : problem ∈ c.problems) : ∃ location, problem = .emptyName location := by
  -- A name is the one fault that is left to each check.
  have hname : ∀ {location name : String}, problem ∈ checkName location name →
      ∃ location, problem = .emptyName location := by
    intro location name hmem
    unfold checkName at hmem
    split at hmem
    · exact ⟨location, List.mem_singleton.1 hmem⟩
    · cases hmem
  -- In each kind of record the checks of the fields find nothing, which leaves those of names.
  unfold problems at h
  rcases List.mem_append.1 h with h | h
  · rcases List.mem_append.1 h with h | h
    · obtain ⟨d, hd, h⟩ := List.mem_flatMap.1 h
      have htrees : ∀ location, checkTrees c.sizes location d.fields = [] := fun location =>
        checkTrees_eq_nil.2 fun f hf => hfields f (mem_heldFields.2 (.inl ⟨d, hd, hf⟩))
      simp only [checkDefinition, htrees, List.append_nil] at h
      exact hname h
    · obtain ⟨ps, hps, h⟩ := List.mem_flatten.1 h
      obtain ⟨i, hi, rfl⟩ := List.mem_mapIdx.1 hps
      have htrees : ∀ location, checkTrees c.sizes location c.schemas[i].fields = [] :=
        fun location => checkTrees_eq_nil.2 fun f hf =>
          hfields f (mem_heldFields.2 (.inr (.inl ⟨c.schemas[i], List.getElem_mem hi, hf⟩)))
      simp only [checkSchema, htrees, List.append_nil] at h
      exact hname h
  · obtain ⟨ps, hps, h⟩ := List.mem_flatten.1 h
    obtain ⟨i, hi, rfl⟩ := List.mem_mapIdx.1 hps
    have htrees : ∀ location, checkTrees c.sizes location c.variants[i].fields = [] :=
      fun location => checkTrees_eq_nil.2 fun f hf =>
        hfields f (mem_heldFields.2 (.inr (.inr ⟨c.variants[i], List.getElem_mem hi, hf⟩)))
    have hschema : ∀ location, checkSchemaHandle c.sizes location c.variants[i].schemaId = [] :=
      fun location => checkSchemaHandle_eq_nil.2 (hvariants c.variants[i] (List.getElem_mem hi))
    simp only [checkVariant, hschema, htrees, List.append_nil] at h
    exact hname h

end Cache

end SchemaGraph
