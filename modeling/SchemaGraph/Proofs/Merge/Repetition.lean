import SchemaGraph.Proofs.Merge.Associativity

/-!
# Merging the Same Cache Again

A cache that was absorbed once is recognized entry by entry when it comes again.  The second plan
is settled against copies of its own entries, renamed by the first plan; what makes it repeat the
first plan is that a copy has the key its original was placed by.

- `newcomers_keysWith_self`: after interning a list, nothing in it is new
- `MergePlan.schemaName_again`: the second plan renames every handle as the first one did
- `Cache.merge_append_again`: the second merge adds definitions only, and the same ones
-/

namespace SchemaGraph

/-! ## §1 Interning a list again -/

section Interning

variable {α κ : Type} [DecidableEq κ]

/-- Nothing is new where every key is known. -/
theorem newcomers_eq_nil {key : α → κ} {known : List κ} {xs : List α}
    (h : ∀ x ∈ xs, key x ∈ known) : newcomers key known xs = [] :=
  List.eq_nil_iff_forall_not_mem.2 fun x hx =>
    key_notMem_of_mem_newcomers hx (h x (mem_of_mem_newcomers hx))

theorem newcomers_keysWith_self (key : α → κ) (known : List κ) (xs : List α) :
    newcomers key (keysWith key known xs) xs = [] :=
  newcomers_eq_nil fun _ hx => key_mem_keysWith known hx

theorem keysWith_self (key : α → κ) (known : List κ) (xs : List α) :
    keysWith key (keysWith key known xs) xs = keysWith key known xs := by
  rw [keysWith, newcomers_keysWith_self, List.map_nil, List.append_nil]

end Interning

/-! ## §2 The second plan -/

namespace MergePlan

variable (base other : Cache)

/-- Variants are placed by short name, and the short names are the same ones. -/
theorem variantName_again :
    (MergePlan.of (base.concat other) other).variantName =
      (MergePlan.of base other).variantName := by
  have hkeys : variantKeys (base.concat other) other = variantKeys base other := by
    rw [variantKeys_concat_left]
    exact keysWith_self _ _ _
  rw [variantName_eq, variantName_eq, hkeys]

/-- So the incoming schemas are recognized by the same shapes, dangling handles included. -/
theorem incomingShape_again :
    incomingShape (base.concat other) other = incomingShape base other := by
  rw [incomingShape, incomingShape, variantName_again]

theorem schemaKeys_again : schemaKeys (base.concat other) other = schemaKeys base other := by
  rw [schemaKeys_concat_left, incomingShape_again]
  exact keysWith_self _ _ _

theorem schemaName_again :
    (MergePlan.of (base.concat other) other).schemaName =
      (MergePlan.of base other).schemaName := by
  rw [schemaName_eq, schemaName_eq, schemaKeys_again, incomingShape_again]

theorem addedVariants_again : (MergePlan.of (base.concat other) other).addedVariants = [] := by
  rw [addedVariants_eq]
  refine newcomers_eq_nil fun v hv => ?_
  -- The known names are those of the merged cache, and the first merge left none out.
  rw [Cache.concat, ← Cache.variantKeys_eq .append]
  exact key_mem_variantKeys hv

theorem addedSchemas_again : (MergePlan.of (base.concat other) other).addedSchemas = [] := by
  rw [addedSchemas_eq, incomingShape_again]
  refine newcomers_eq_nil fun s hs => ?_
  -- The copy that the first merge appended has the shape by which `s` is recognized.
  rw [Cache.concat, ← Cache.schemaKeys_eq .append]
  exact key_mem_schemaKeys hs

end MergePlan

/-! ## §3 The second merge -/

theorem mergeCasts_again (m m' : SortedMap String) :
    mergeCasts (mergeCasts m m') m' = mergeCasts m m' := by
  apply SortedMap.ext_get?
  intro key
  simp only [get?_mergeCasts]
  cases m'.get? key <;> rfl

namespace Cache

/-- **Merging again**: absorbing a cache a second time adds no schema and no variant, leaves the
arenas and the cast table as they are, and appends the same block of definitions once more, with
the same handles.  The caches may have dangling handles and repeated names. -/
theorem merge_append_again (base other : Cache) :
    let once := base.merge .append other
    let twice := once.merge .append other
    (once.mergeReport .append other).schemasAdded = 0 ∧
      (once.mergeReport .append other).variantsAdded = 0 ∧
      twice.schemas = once.schemas ∧ twice.variants = once.variants ∧
      twice.castTable = once.castTable ∧
      ∃ block : List Definition, block.length = other.definitions.length ∧
        once.definitions = base.definitions ++ block ∧
        twice.definitions = once.definitions ++ block := by
  intro once twice
  -- After the first merge all incoming keys are known, so the second plan appends nothing.
  have hschemas : (MergePlan.of once other).addedSchemas = [] :=
    MergePlan.addedSchemas_again base other
  have hvariants : (MergePlan.of once other).addedVariants = [] :=
    MergePlan.addedVariants_again base other
  refine ⟨?_, ?_, ?_, ?_, mergeCasts_again base.castTable other.castTable, ?_⟩
  · show (MergePlan.of once other).addedSchemas.length = 0
    rw [hschemas, List.length_nil]
  · show (MergePlan.of once other).addedVariants.length = 0
    rw [hvariants, List.length_nil]
  · show (once.merge .append other).schemas = once.schemas
    rw [merge_schemas, hschemas, List.map_nil, List.append_nil]
  · show (once.merge .append other).variants = once.variants
    rw [merge_variants, hvariants, List.map_nil, List.append_nil]
  · -- Both merges append the incoming definitions, renamed by plans that agree.
    refine ⟨other.definitions.map (Definition.relabel (MergePlan.of base other).schemaName
      (MergePlan.of base other).variantName), List.length_map _, rfl, ?_⟩
    rw [← MergePlan.schemaName_again, ← MergePlan.variantName_again]
    rfl

end Cache

end SchemaGraph
