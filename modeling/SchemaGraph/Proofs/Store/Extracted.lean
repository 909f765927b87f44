import SchemaGraph.Proofs.Extraction.Session
import SchemaGraph.Proofs.Store.Decoding

/-!
# Documents of Extracted Caches

What extraction gives can be persisted.  Nothing is attached to an extracted field, so no document
nests deeper than one can be read; and every handle is one of an arena, so it has 32 bits if the
arenas are not larger than that.

- `Module.extractedFrom_extract`, `FileTree.extractedFrom_extract?`: what is extracted
- `Cache.ExtractedFrom.inRange`, `Cache.ExtractedFrom.height_persisted_le`: its document
-/

namespace SchemaGraph

open Json

/-! ## §1 Passes and their replies -/

namespace Module

variable {m : Module} {conventions : Conventions} {c : Cache}

/-- Extraction is the reply of a session that does nothing else. -/
theorem exists_reply_of_extract (h : m.extract conventions = .ok c) :
    ∃ step ∈ ({ module := m, conventions } : Pass).session [.extract] Pass.start,
      step.1 = .ok (.cache c) := by
  let p : Pass := { module := m, conventions }
  refine ⟨p.perform .extract Pass.start, List.mem_cons_self, ?_⟩
  show ((ExceptT.map Pass.Reply.cache p.extract) Pass.start).1 = _
  rcases hrun : p.extract Pass.start with ⟨answer, s⟩
  have hok : answer = .ok c := by
    have hfirst : (p.extract Pass.start).1 = .ok c := h
    rwa [hrun] at hfirst
  simp only [ExceptT.map, ExceptT.mk, bind, StateT.bind, hrun, hok]
  rfl

theorem extractedFrom_extract (h : m.extract conventions = .ok c) : c.ExtractedFrom m := by
  obtain ⟨step, hstep, hreply⟩ := exists_reply_of_extract h
  have hstart : (Pass.start : Pass.State).1.Coherent m := Registry.coherent_empty _
  exact (Pass.coherent_of_mem_session hstart hstep).2 _ hreply

end Module

namespace FileTree

variable {t : FileTree} {p : Path} {conventions : Conventions} {c : Cache}

/-- A module file is extracted by extracting the module in it. -/
theorem exists_module_of_extract? (h : t.extract? p conventions = some c) :
    ∃ m : Module, m.extract conventions = .ok c := by
  -- The path does not matter for what is extracted, so the module may have any.
  obtain ⟨contents, -, hcontents⟩ := Option.bind_eq_some_iff.1 h
  unfold extractContents? at hcontents
  split at hcontents
  · cases hcontents
  · obtain ⟨manifest, -, hmanifest⟩ := Option.bind_eq_some_iff.1 hcontents
    refine ⟨.ofManifest "" manifest, ?_⟩
    cases hextract : (Module.ofManifest "" manifest).extract conventions with
    | error e =>
      rw [hextract] at hmanifest
      cases hmanifest
    | ok cache =>
      rw [hextract] at hmanifest
      exact congrArg Except.ok (Option.some.inj hmanifest)

theorem extractedFrom_extract? (h : t.extract? p conventions = some c) :
    ∃ m, c.ExtractedFrom m := by
  obtain ⟨m, hm⟩ := exists_module_of_extract? h
  exact ⟨m, Module.extractedFrom_extract hm⟩

end FileTree

/-! ## §2 Handles -/

/-- The positions in both arenas have 32 bits. -/
structure ArenaSizes.InRange (sizes : ArenaSizes) : Prop where
  schemas : sizes.schemas ≤ 0x80000000
  variants : sizes.variants ≤ 0x80000000

theorem IsHandleIn.inRange {size : Nat} {h : Handle} (hin : IsHandleIn size h)
    (hsize : size ≤ 0x80000000) : Handle.InRange h := by
  rcases hin with rfl | ⟨hlow, hhigh⟩
  · exact ⟨by decide, by decide⟩
  · have hsize' : (size : Int) ≤ 0x7FFFFFFF + 1 := Int.ofNat_le.2 hsize
    exact ⟨Int.le_trans (by decide) hlow, Int.le_of_lt_add_one (Int.lt_of_lt_of_le hhigh hsize')⟩

namespace Field

variable {f : Field} {sizes : ArenaSizes}

theorem Extracted.inRange (h : f.Extracted sizes) (hsizes : sizes.InRange) : f.InRange :=
  everywhere_of_leaf h.leaf ⟨h.schema.inRange hsizes.schemas,
    fun v hv => IsHandleIn.inRange (.inr (h.variants v hv)) hsizes.variants⟩

end Field

/-! ## §3 Heights -/

theorem height_arr_map_le {α : Type} {xs : List α} {write : α → Json} {n : Nat}
    (h : ∀ x ∈ xs, (write x).height ≤ n) : (Json.arr (xs.map write)).height ≤ n + 1 := by
  rw [height_arr_le]
  intro j hj
  obtain ⟨x, hx, rfl⟩ := List.mem_map.1 hj
  exact h x hx

namespace Field

variable {f : Field}

theorem height_textsToJson_le (xs : List String) : (textsToJson xs).height ≤ 1 :=
  height_arr_map_le fun _ _ => Nat.le_refl _

theorem height_handlesToJson_le (hs : List Handle) : (handlesToJson hs).height ≤ 1 :=
  height_arr_map_le fun _ _ => Nat.le_refl _

/-- Without children, only the lists of a field nest. -/
theorem height_toJson_le (h : f.children = none) : f.toJson.height ≤ 2 := by
  have hslot : ∀ slot ∈ f.slots, ∀ j ∈ slot, j.height ≤ 1 := by
    have hhint : ∀ j ∈ (if f.hint = "" then none else some (Json.str f.hint)), j.height ≤ 1 := by
      split <;> simp [height]
    simp only [slots, List.forall_mem_cons]
    exact ⟨by simp [height], by simp [height], by simp [height],
      by simp [height_textsToJson_le], by simp [height_handlesToJson_le], by simp [height],
      by simp [h], hhint, by simp [height], by simp [height], List.forall_mem_nil _⟩
  rw [toJson_eq, height_obj_le]
  exact fun e he => hslot (some e.2) (mem_of_mem_entriesOf he) e.2 rfl

theorem height_fieldsToJson_le {fs : List Field} (h : ∀ f ∈ fs, f.children = none) :
    (fieldsToJson fs).height ≤ 3 := by
  rw [fieldsToJson, listToJson_eq]
  exact height_arr_map_le fun f hf => height_toJson_le (h f hf)

end Field

theorem SortedMap.height_toJson_le {α : Type} (m : SortedMap α) {write : α → Json} {n : Nat}
    (h : ∀ x, (write x).height ≤ n) : (m.toJson write).height ≤ n + 1 := by
  rw [SortedMap.toJson, height_obj_le]
  intro e he
  obtain ⟨x, -, rfl⟩ := List.mem_map.1 he
  exact h x.2

namespace Cache.ExtractedFrom

variable {m : Module} {c : Cache}

/-- **Extracted caches** have handles that can be read, if the arenas are not too large. -/
theorem inRange (h : c.ExtractedFrom m) (hsizes : c.sizes.InRange) : c.InRange where
  definitions d hd f hf :=
    (h.fields f (mem_heldFields.2 (.inl ⟨d, hd, hf⟩))).inRange hsizes
  schemas s hs f hf :=
    (h.fields f (mem_heldFields.2 (.inr (.inl ⟨s, hs, hf⟩)))).inRange hsizes
  variants v hv :=
    ⟨(h.variants v hv).inRange hsizes.schemas, fun f hf =>
      (h.fields f (mem_heldFields.2 (.inr (.inr ⟨v, hv, hf⟩)))).inRange hsizes⟩

theorem height_le (h : c.ExtractedFrom m) : c.toJson.height ≤ 6 := by
  have hleaf : ∀ f ∈ c.heldFields, f.children = none := fun f hf => (h.fields f hf).leaf
  -- An entry is one level around its fields, and the list of the entries is another one.
  have hdefinitions : (Json.arr (c.definitions.map Definition.toJson)).height ≤ 5 := by
    refine height_arr_map_le fun d hd => ?_
    have hfields := Field.height_fieldsToJson_le fun f hf =>
      hleaf f (mem_heldFields.2 (.inl ⟨d, hd, hf⟩))
    simp only [Definition.toJson, height, heightEntries]
    omega
  have hschemas : (Json.arr (c.schemas.map Schema.toJson)).height ≤ 5 := by
    refine height_arr_map_le fun s hs => ?_
    have hfields := Field.height_fieldsToJson_le fun f hf =>
      hleaf f (mem_heldFields.2 (.inr (.inl ⟨s, hs, hf⟩)))
    simp only [Schema.toJson, height, heightEntries]
    omega
  have hvariants : (Json.arr (c.variants.map Variant.toJson)).height ≤ 5 := by
    refine height_arr_map_le fun v hv => ?_
    have hfields := Field.height_fieldsToJson_le fun f hf =>
      hleaf f (mem_heldFields.2 (.inr (.inr ⟨v, hv, hf⟩)))
    simp only [Variant.toJson, height, heightEntries]
    omega
  have hcatalog := c.catalog.height_toJson_le Field.height_textsToJson_le
  have hcasts : (c.castTable.toJson .str).height ≤ 1 :=
    c.castTable.height_toJson_le fun _ => Nat.le_refl _
  rw [Cache.toJson, height_obj_le]
  simp only [List.forall_mem_cons]
  exact ⟨hdefinitions, by omega, hschemas, hvariants, by omega, List.forall_mem_nil _⟩

/-- **The document of an extracted cache** is not too deep to be read. -/
theorem height_persisted_le (h : c.ExtractedFrom m) (f : Fingerprint) (conventions : Conventions)
    (now : String) : (PersistedCache.ofCache f conventions c now).toJson.height ≤ maxDepth := by
  have hcache : c.toJson.height ≤ 6 := h.height_le
  have hseven : (PersistedCache.ofCache f conventions c now).toJson.height ≤ 7 := by
    simp only [PersistedCache.toJson, PersistedCache.ofCache, Fingerprint.toJson, height,
      heightEntries]
    omega
  exact Nat.le_trans hseven (by decide)

end Cache.ExtractedFrom

end SchemaGraph
