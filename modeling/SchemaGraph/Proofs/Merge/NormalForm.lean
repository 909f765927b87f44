import SchemaGraph.Proofs.Merge.Associativity
import SchemaGraph.Proofs.Merge.Matching

/-!
# Caches in Normal Form

A cache is in normal form when no short name of a variant occurs twice and no two of its schemas
match.  Interning appends only what has a new key, and the key of an entry while it waits is the
key it has once it is stored; so a merge keeps the normal form of its base whatever it absorbs,
and a cache in normal form goes through an empty base as it is.

- `Cache.normalForm_merge_iff`: one merge, by any strategy
- `Cache.normalForm_mergeAll`: every sequence of merges
- `Cache.merge_empty_left_iff`: the caches that an empty base reproduces
-/

namespace SchemaGraph

/-! ## §1 Interning without repetition -/

section Interning

variable {α κ : Type} [DecidableEq κ]

/-- Interning never repeats a key that was not repeated before. -/
theorem nodup_keysWith_iff (key : α → κ) {known : List κ} (xs : List α) :
    (keysWith key known xs).Nodup ↔ known.Nodup := by
  rw [keysWith, List.nodup_append]
  constructor
  · exact fun h => h.1
  · intro h
    refine ⟨h, nodup_map_newcomers key known xs, ?_⟩
    rintro a ha b hb rfl
    exact (mem_map_newcomers.1 hb).2 ha

/-- Among entries with different keys, the new ones are those whose key is not known. -/
theorem newcomers_eq_filter {key : α → κ} {known : List κ} {xs : List α}
    (hnodup : (xs.map key).Nodup) :
    newcomers key known xs = xs.filter fun x => key x ∉ known := by
  induction xs generalizing known with
  | nil => rfl
  | cons x xs ih =>
    obtain ⟨hx, hxs⟩ := List.nodup_cons.1 hnodup
    rw [newcomers, List.filter_cons]
    by_cases hknown : key x ∈ known
    · rw [if_pos hknown, if_neg (by simpa using hknown), ih hxs]
    · -- That `key x` is known from now on makes no difference to the others.
      have hrest : xs.filter (fun y => key y ∉ key x :: known) =
          xs.filter fun y => key y ∉ known := by
        refine List.filter_congr fun y hy => ?_
        have hne : key y ≠ key x := fun heq => hx (heq ▸ List.mem_map_of_mem hy)
        simp only [List.mem_cons, hne, false_or]
      rw [if_neg hknown, if_pos (by simpa using hknown), ih hxs, hrest]

/-- Entries with different keys are all new to an empty arena. -/
theorem newcomers_eq_self {key : α → κ} {known : List κ} {xs : List α}
    (hnodup : (xs.map key).Nodup) (hnew : ∀ x ∈ xs, key x ∉ known) :
    newcomers key known xs = xs := by
  rw [newcomers_eq_filter hnodup]
  exact List.filter_eq_self.2 fun x hx => decide_eq_true (hnew x hx)

/-- An arena without repetition is placed into itself entry by entry; handles outside of it stay
as they are anyway. -/
theorem HandleMap.apply_placement_self {keys : List κ} (h : keys.Nodup) :
    (placement keys keys).apply = id := by
  funext i
  by_cases hout : i < 0 ∨ keys.length ≤ i
  · exact apply_placement_of_notIn _ _ hout
  · obtain ⟨hnonneg, hlt⟩ := not_or.1 hout
    obtain ⟨k, hk, rfl⟩ := exists_position (Int.not_lt.1 hnonneg) (Int.not_le.1 hlt)
    rw [apply_placement _ _ hk, h.idxOf_getElem, id]

end Interning

/-! ## §2 Renaming nothing -/

namespace Field

theorem relabel_id (f : Field) : f.relabel id id = f := by
  induction f using inductionOn with
  | node f ih =>
    obtain ⟨name, declaredType, kind, enumValues, variantIds, schemaId, children, hint, l, m⟩ := f
    have hbelow : children.map (·.map (relabel id id)) = children := by
      cases children with
      | none => rfl
      | some cs => exact congrArg some ((List.map_congr_left ih).trans (List.map_id cs))
    rw [relabel_eq, hbelow]
    simp

theorem relabelAll_id (fs : List Field) : relabelAll id id fs = fs := by
  rw [relabelAll_eq_map, List.map_congr_left fun f _ => relabel_id f, List.map_id']

end Field

theorem Schema.relabel_id : Schema.relabel id id = id :=
  funext fun s => by rw [relabel, Field.relabelAll_id, id]

theorem Variant.relabel_id : Variant.relabel id id = id :=
  funext fun v => by rw [relabel, Field.relabelAll_id, id, id]

theorem Definition.relabel_id : Definition.relabel id id = id :=
  funext fun d => by rw [relabel, Field.relabelAll_id, id]

/-! ## §3 Normal form -/

namespace Cache

/-- No two variants have one short name, and no two schemas match. -/
structure NormalForm (c : Cache) : Prop where
  variants : (c.variants.map (·.fullName)).Nodup
  schemas : c.schemas.Pairwise fun s t => ¬ s.Matches id id t

theorem normalForm_iff {c : Cache} :
    c.NormalForm ↔
      (c.variants.map (·.fullName)).Nodup ∧ (c.schemas.map (Schema.shape id)).Nodup := by
  rw [Schema.nodup_map_shape_iff]
  exact ⟨fun h => ⟨h.variants, h.schemas⟩, fun h => ⟨h.1, h.2⟩⟩

theorem normalForm_empty : empty.NormalForm := ⟨List.nodup_nil, List.Pairwise.nil⟩

/-- **One merge**: the arenas that a plan predicts are those of the merged cache, so neither of
them repeats a key unless the base did. -/
theorem normalForm_merge_iff {base incoming : Cache} (strategy : MergeStrategy) :
    (base.merge strategy incoming).NormalForm ↔ base.NormalForm := by
  rw [normalForm_iff, normalForm_iff, ← variantKeys_eq, ← schemaKeys_eq]
  exact and_congr (nodup_keysWith_iff _ _) (nodup_keysWith_iff _ _)

theorem normalForm_mergeAll_iff {base : Cache} (steps : List (MergeStrategy × Cache)) :
    (base.mergeAll steps).NormalForm ↔ base.NormalForm := by
  induction steps generalizing base with
  | nil => exact Iff.rfl
  | cons step steps ih =>
    have hstep : (base.merge step.1 step.2).NormalForm ↔ base.NormalForm :=
      normalForm_merge_iff step.1
    exact ih.trans hstep

/-- **Merged arenas stay in normal form**: what is merged into the empty cache, by whatever
strategies and with whatever repetitions and dangling handles, is in normal form, and merging
neither breaks nor repairs the normal form of a base. -/
theorem normalForm_mergeAll (steps : List (MergeStrategy × Cache)) :
    (empty.mergeAll steps).NormalForm
      ∧ ∀ base : Cache, (base.mergeAll steps).NormalForm ↔ base.NormalForm :=
  ⟨(normalForm_mergeAll_iff steps).2 normalForm_empty, fun _ => normalForm_mergeAll_iff steps⟩

/-! ## §4 An empty base -/

theorem mergeCatalogs_empty_left (m : SortedMap (List String)) : mergeCatalogs .empty m = m := by
  apply SortedMap.ext_get?
  intro key
  rw [get?_mergeCatalogs]
  cases m.get? key <;> rfl

theorem mergeCasts_empty_left (m : SortedMap String) : mergeCasts .empty m = m := by
  apply SortedMap.ext_get?
  intro key
  rw [get?_mergeCasts]
  cases m.get? key <;> rfl

namespace NormalForm

variable {c : Cache} (h : c.NormalForm)
include h

/-- The plan for an empty base renames no variant. -/
theorem variantName_empty : (MergePlan.of empty c).variantName = id := by
  have hnew : newcomers (·.fullName) [] c.variants = c.variants :=
    newcomers_eq_self h.variants fun v _ hmem => by cases hmem
  have hkeys : MergePlan.variantKeys empty c = c.variants.map (·.fullName) := by
    show [] ++ (newcomers (·.fullName) [] c.variants).map (·.fullName) = _
    rw [hnew, List.nil_append]
  rw [MergePlan.variantName_eq, hkeys, HandleMap.apply_placement_self h.variants]

theorem addedVariants_empty : (MergePlan.of empty c).addedVariants = c.variants :=
  newcomers_eq_self h.variants fun v _ hmem => by cases hmem

theorem addedSchemas_empty : (MergePlan.of empty c).addedSchemas = c.schemas := by
  rw [MergePlan.addedSchemas_eq, MergePlan.incomingShape, h.variantName_empty]
  exact newcomers_eq_self (normalForm_iff.1 h).2 fun s _ hmem => by cases hmem

/-- So the incoming schemas are recognized by their own shapes, and none is renamed, either. -/
theorem schemaName_empty : (MergePlan.of empty c).schemaName = id := by
  have hshape : MergePlan.incomingShape empty c = Schema.shape id := by
    rw [MergePlan.incomingShape, h.variantName_empty]
  have hkeys : MergePlan.schemaKeys empty c = c.schemas.map (Schema.shape id) := by
    show [] ++ ((MergePlan.of empty c).addedSchemas).map (MergePlan.incomingShape empty c) = _
    rw [h.addedSchemas_empty, hshape, List.nil_append]
  rw [MergePlan.schemaName_eq, hkeys, hshape,
    HandleMap.apply_placement_self (normalForm_iff.1 h).2]

/-- A cache in normal form goes through an empty base as it is. -/
theorem merge_empty_left : empty.merge .append c = c := by
  unfold merge
  simp only [h.schemaName_empty, h.variantName_empty, h.addedSchemas_empty,
    h.addedVariants_empty, Definition.relabel_id, Schema.relabel_id, Variant.relabel_id,
    List.map_id]
  -- What is left is each part of `c` behind an empty one.
  show (⟨c.definitions, mergeCatalogs .empty c.catalog, c.schemas, c.variants,
    mergeCasts .empty c.castTable⟩ : Cache) = c
  rw [mergeCatalogs_empty_left, mergeCasts_empty_left]

end NormalForm

/-- **An empty base** reproduces exactly the caches in normal form. -/
theorem merge_empty_left_iff {c : Cache} : empty.merge .append c = c ↔ c.NormalForm := by
  constructor
  · intro h
    rw [← h, normalForm_merge_iff]
    exact normalForm_empty
  · exact fun h => h.merge_empty_left

end Cache

end SchemaGraph
