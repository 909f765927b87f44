import SchemaGraph.Query
import SchemaGraph.Proofs.Merge.Associativity
import SchemaGraph.Proofs.Merge.Unfolding

/-!
# Queries on a Merged Cache

A query reads the definitions by tag and the schema arena by handle.  Appending a cache changes
neither for a path that names none of its tags: the tag index answers as before, the path is cut
at the same segment, and every handle on the way points at the entry it pointed at.

- `Cache.segments_merge`: the path is cut where it was cut
- `Cache.walk_merge`: a walk below fields of the base leads to the same field
- `Cache.merge_append_keeps_answers`: both queries answer as before the merge
-/

namespace SchemaGraph

namespace Cache

/-! ## §1 Counted segments -/

section FromLast

variable {α : Type} {p q : α → Bool}

/-- Only what the property says of the list matters. -/
theorem fromLast_congr {xs : List α} (h : ∀ x ∈ xs, p x = q x) :
    fromLast p xs = fromLast q xs := by
  cases xs with
  | nil => rfl
  | cons x xs =>
    -- Each element is looked at by itself, so the part that is dropped is the same.
    have hdrop : ∀ ys : List α, (∀ y ∈ ys, y ∈ xs) →
        ys.dropWhile (fun y => !p y) = ys.dropWhile (fun y => !q y) := by
      intro ys hys
      induction ys with
      | nil => rfl
      | cons y ys ih =>
        have hy : p y = q y := h y (List.mem_cons_of_mem _ (hys y List.mem_cons_self))
        rw [List.dropWhile_cons, List.dropWhile_cons, hy,
          ih fun z hz => hys z (List.mem_cons_of_mem _ hz)]
    rw [fromLast, fromLast, hdrop xs.reverse fun y hy => List.mem_reverse.1 hy]

/-- What counts is part of the path. -/
theorem mem_of_mem_fromLast {xs : List α} {x : α} (h : x ∈ fromLast p xs) : x ∈ xs := by
  cases xs with
  | nil => exact h
  | cons y ys =>
    rw [fromLast] at h
    split at h
    · exact h
    · exact List.mem_cons_of_mem _ (List.mem_of_mem_drop h)

end FromLast

/-! ## §2 The tag index -/

section Tags

variable {base other : Cache} {tag : String}

/-- Renaming handles does not touch tags. -/
theorem find?_tag_relabel (σ ρ : Handle → Handle) (ds : List Definition) (tag : String) :
    (ds.map (Definition.relabel σ ρ)).find? (fun d => d.tagName = tag) =
      (ds.find? fun d => d.tagName = tag).map (Definition.relabel σ ρ) := by
  rw [List.find?_map]
  rfl

/-- The tags after appending are the tags of both caches. -/
theorem hasTag_merge_append (base other : Cache) (tag : String) :
    (base.merge .append other).hasTag tag = (base.hasTag tag || other.hasTag tag) := by
  show List.any (base.definitions ++ _) _ = _
  rw [List.any_append, List.any_map]
  rfl

theorem lastDefinition?_eq_none_of_hasTag (h : other.hasTag tag = false) :
    other.lastDefinition? tag = none := by
  refine List.find?_eq_none.2 fun d hd => ?_
  exact List.any_eq_false.1 h d (List.mem_reverse.1 hd)

/-- The last definition of a tag that the appended cache lacks is the one from before. -/
theorem lastDefinition?_merge_append (h : other.hasTag tag = false) :
    (base.merge .append other).lastDefinition? tag = base.lastDefinition? tag := by
  have hother : other.definitions.reverse.find? (fun d => d.tagName = tag) = none :=
    lastDefinition?_eq_none_of_hasTag h
  show List.find? _ (base.definitions ++ other.definitions.map _).reverse = _
  -- The search meets the appended definitions first, and passes them.
  rw [List.reverse_append, List.find?_append, ← List.map_reverse, find?_tag_relabel, hother]
  rfl

theorem mem_of_lastDefinition? {c : Cache} {d : Definition}
    (h : c.lastDefinition? tag = some d) : d ∈ c.definitions :=
  List.mem_reverse.1 (List.mem_of_find?_eq_some h)

theorem segments_merge {path : String}
    (h : ∀ segment ∈ pathSegments path, other.hasTag segment = false) :
    (base.merge .append other).segments path = base.segments path := by
  refine fromLast_congr fun segment hsegment => ?_
  rw [hasTag_merge_append, h segment hsegment, Bool.or_false]

end Tags

/-! ## §3 Walks -/

section Walks

variable {base : Cache} {current : List Field} {last : Option Field}

/-- A walk that starts at valid fields ends at one. -/
theorem IndexValid.walk (hbase : base.IndexValid)
    (hcurrent : ∀ f ∈ current, f.Everywhere (Field.HandlesIn base.sizes))
    (hlast : ∀ f ∈ last, f.Everywhere (Field.HandlesIn base.sizes)) (path : List String) :
    ∀ f ∈ Cache.walk base.schemas current last path,
      f.Everywhere (Field.HandlesIn base.sizes) := by
  fun_induction Cache.walk base.schemas current last path with
  | case1 => exact hlast
  | case2 current last segment rest hitem ih => exact ih hcurrent hlast
  | case3 => exact hlast
  | case4 current last segment rest hitem f hfind hstructure ih =>
    have hf := hcurrent f (List.mem_of_find?_eq_some hfind)
    -- Fields below the current ones are valid, as no handle of the base dangles.
    refine ih (hbase.childrenIn hf) fun g hg => ?_
    rwa [← Option.mem_some_iff.1 hg]
  | case5 current last segment rest hitem f hfind hstructure =>
    intro g hg
    rw [← Option.mem_some_iff.1 hg]
    exact hcurrent f (List.mem_of_find?_eq_some hfind)

/-- **Walks are local**: below fields of the base the arena is read at handles of the base. -/
theorem walk_merge (hbase : base.IndexValid) (strategy : MergeStrategy) (other : Cache)
    (hcurrent : ∀ f ∈ current, f.Everywhere (Field.HandlesIn base.sizes)) (path : List String) :
    walk (base.merge strategy other).schemas current last path =
      walk base.schemas current last path := by
  induction path generalizing current last with
  | nil => rfl
  | cons segment rest ih =>
    rw [walk, walk, ih hcurrent]
    cases hfind : current.find? (fun f => f.name = segment) with
    | none => rfl
    | some f =>
      have hf := hcurrent f (List.mem_of_find?_eq_some hfind)
      -- The fields below `f` are the same ones and valid again.
      simp only [childrenIn_merge strategy other hf.here, ih (hbase.childrenIn hf)]

end Walks

/-! ## §4 Answers -/

section Answers

variable {base other : Cache}

theorem IndexValid.definition_fields (hbase : base.IndexValid) {d : Definition}
    (hd : d ∈ base.definitions) : ∀ f ∈ d.fields, f.Everywhere (Field.HandlesIn base.sizes) :=
  fun f hf => hbase.fields f (mem_heldFields.2 (.inl ⟨d, hd, hf⟩))

theorem deepestIn_merge (hbase : base.IndexValid) {path : List String}
    (h : ∀ segment ∈ path, other.hasTag segment = false) :
    (base.merge .append other).deepestIn path = base.deepestIn path := by
  cases path with
  | nil => rfl
  | cons tag rest =>
    rw [deepestIn, deepestIn, lastDefinition?_merge_append (h tag List.mem_cons_self)]
    cases hd : base.lastDefinition? tag with
    | none => rfl
    | some d =>
      exact walk_merge hbase .append other
        (hbase.definition_fields (mem_of_lastDefinition? hd)) rest

theorem IndexValid.deepestIn (hbase : base.IndexValid) {path : List String} {f : Field}
    (h : base.deepestIn path = some f) : f.HandlesIn base.sizes := by
  cases path with
  | nil => cases h
  | cons tag rest =>
    rw [Cache.deepestIn] at h
    cases hd : base.lastDefinition? tag with
    | none => simp [hd] at h
    | some d =>
      rw [hd] at h
      have hfields := hbase.definition_fields (mem_of_lastDefinition? hd)
      exact (hbase.walk hfields (fun _ hg => by cases hg) rest f h).here

theorem childrenAt_merge (hbase : base.IndexValid) {path : String}
    (h : ∀ segment ∈ pathSegments path, other.hasTag segment = false) :
    (base.merge .append other).childrenAt path = base.childrenAt path := by
  have hsegments : ∀ segment ∈ base.segments path, other.hasTag segment = false :=
    fun segment hsegment => h segment (mem_of_mem_fromLast hsegment)
  -- Neither the segments nor the definition they begin with have changed.
  rw [childrenAt, childrenAt, segments_merge h]
  generalize base.segments path = segments at hsegments
  split
  next tag => rw [lastDefinition?_merge_append (hsegments tag List.mem_cons_self)]
  next =>
    rw [deepestIn_merge hbase hsegments]
    cases hdeepest : base.deepestIn segments with
    | none => rfl
    | some f => simp only [childrenIn_merge .append other (hbase.deepestIn hdeepest)]

/-- **Appending changes no existing answer**: on a base without dangling handles, a path without
a tag of the appended cache leads to the same field, with the same fields below; and after a
merge of either kind every handle of the base points at the entry it pointed at. -/
theorem merge_append_keeps_answers (base other : Cache) :
    (base.IndexValid → ∀ path : String,
      (∀ segment ∈ pathSegments path, other.hasTag segment = false) →
        (base.merge .append other).deepestField? path = base.deepestField? path ∧
          (base.merge .append other).childrenAt path = base.childrenAt path) ∧
      ∀ (strategy : MergeStrategy) (h : Handle),
        (h < base.schemas.length → (base.merge strategy other).schema? h = base.schema? h) ∧
          (h < base.variants.length →
            (base.merge strategy other).variant? h = base.variant? h) := by
  refine ⟨fun hbase path hpath => ⟨?_, childrenAt_merge hbase hpath⟩, fun strategy h => ⟨?_, ?_⟩⟩
  · rw [deepestField?, deepestField?, segments_merge hpath]
    exact deepestIn_merge hbase fun segment hsegment => hpath segment (mem_of_mem_fromLast hsegment)
  · intro hlt
    rw [schema?, merge_schemas, entryAt?_append _ _ hlt, schema?]
  · intro hlt
    rw [variant?, merge_variants, entryAt?_append _ _ hlt, variant?]

end Answers

/-- The appended cache has other entries at the handles that the path is read with. -/
theorem answers_kept_by_patch :
    lampCache.IndexValid ∧
      (∀ segment ∈ pathSegments "Defs/ThingDef/comps/li", patchCache.hasTag segment = false) ∧
      (lampCache.concat patchCache).childrenAt "Defs/ThingDef/comps/li" =
        (some (.polymorphicList "comps" "List<Verse.CompProperties>" 0 [0]),
          [.scalar "compClass" "System.Type"]) ∧
      (0 : Handle) < lampCache.schemas.length ∧
      (lampCache.merge .overwrite patchCache).schema? 0 = lampCache.schema? 0 ∧
      (0 : Handle) < lampCache.variants.length ∧
      (lampCache.merge .overwrite patchCache).variant? 0 = lampCache.variant? 0 := by
  have hlamp : lampCache.IndexValid :=
    (problems_eq_nil_iff.1 (by decide : lampCache.problems = [])).toIndexValid
  have hpath : ∀ segment ∈ pathSegments "Defs/ThingDef/comps/li",
      patchCache.hasTag segment = false := by decide
  have hschema : (0 : Handle) < lampCache.schemas.length := by decide
  have hvariant : (0 : Handle) < lampCache.variants.length := by decide
  obtain ⟨hqueries, hhandles⟩ := merge_append_keeps_answers lampCache patchCache
  refine ⟨hlamp, hpath, (hqueries hlamp _ hpath).2.trans (by decide), hschema, ?_,
    hvariant, ?_⟩
  · exact (hhandles .overwrite 0).1 hschema
  · exact (hhandles .overwrite 0).2 hvariant

end Cache

end SchemaGraph
