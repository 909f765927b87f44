import SchemaGraph.Proofs.Bytes.Lossless
import SchemaGraph.Proofs.Model.Documents
import SchemaGraph.Proofs.Model.FieldTree
import SchemaGraph.Store.Persisted

/-!
# Persisted Caches Read Back

The file of a persisted cache can be read as that persisted cache only, and conventions are told
apart by their documents.

- `PersistedCache.eq_of_ofBytes?_toBytes`: whatever the file gives is what was written
- `Conventions.eq_of_compact_eq`: different conventions have different documents
-/

namespace SchemaGraph

open Document Json

/-! ## §1 Plain documents -/

namespace Json

theorem isPlain_arr_map {α : Type} {write : α → Json} (h : ∀ x, (write x).isPlain = true)
    (xs : List α) : (Json.arr (xs.map write)).isPlain = true := by
  rw [isPlain, allPlain_iff]
  intro j hj
  obtain ⟨x, -, rfl⟩ := List.mem_map.1 hj
  exact h x

theorem isPlain_entriesOf (names : List String) {slots : List (Option Json)}
    (h : ∀ slot ∈ slots, ∀ j ∈ slot, j.isPlain = true) :
    (Json.obj (entriesOf names slots)).isPlain = true := by
  rw [isPlain, allEntriesPlain_iff]
  intro e he
  exact h (some e.2) (mem_of_mem_entriesOf he) e.2 rfl

end Json

theorem SortedMap.isPlain_toJson {α : Type} {write : α → Json} (h : ∀ x, (write x).isPlain = true)
    (m : SortedMap α) : (m.toJson write).isPlain = true := by
  rw [SortedMap.toJson, isPlain, allEntriesPlain_iff]
  intro e he
  obtain ⟨x, -, rfl⟩ := List.mem_map.1 he
  exact h x.2

namespace Field

theorem isPlain_textsToJson (xs : List String) : (textsToJson xs).isPlain = true :=
  isPlain_arr_map (fun _ => rfl) xs

theorem isPlain_handlesToJson (xs : List Handle) : (handlesToJson xs).isPlain = true :=
  isPlain_arr_map (fun _ => rfl) xs

/-- **Fields** are plain, with children nested to any depth. -/
theorem isPlain_toJson (f : Field) : f.toJson.isPlain = true := by
  induction f using inductionOn with
  | node f ih =>
    have hchildren : ∀ j ∈ f.children.map fieldsToJson, j.isPlain = true := by
      intro j hj
      -- The children are lists of fields, for which the induction hypothesis speaks.
      obtain ⟨cs, hcs, rfl⟩ := Option.map_eq_some_iff.1 hj
      rw [fieldsToJson, listToJson_eq, isPlain, allPlain_iff]
      intro j hj
      obtain ⟨c, hc, rfl⟩ := List.mem_map.1 hj
      exact ih c (by rwa [childList, hcs])
    have hhint : ∀ j ∈ (if f.hint = "" then none else some (Json.str f.hint)),
        j.isPlain = true := by
      split <;> simp [isPlain]
    rw [toJson_eq]
    refine isPlain_entriesOf keys ?_
    simp only [slots, List.forall_mem_cons]
    exact ⟨by simp [isPlain], by simp [isPlain], by simp [isPlain],
      by simp [isPlain_textsToJson], by simp [isPlain_handlesToJson], by simp [isPlain],
      hchildren, hhint, by simp [isPlain], by simp [isPlain], List.forall_mem_nil _⟩

theorem isPlain_fieldsToJson (fs : List Field) : (fieldsToJson fs).isPlain = true := by
  rw [fieldsToJson, listToJson_eq]
  exact isPlain_arr_map isPlain_toJson fs

end Field

theorem Schema.isPlain_toJson (s : Schema) : s.toJson.isPlain = true := by
  simp [Schema.toJson, isPlain, allEntriesPlain, Field.isPlain_fieldsToJson]

theorem Variant.isPlain_toJson (v : Variant) : v.toJson.isPlain = true := by
  simp [Variant.toJson, isPlain, allEntriesPlain, Field.isPlain_fieldsToJson]

theorem Definition.isPlain_toJson (d : Definition) : d.toJson.isPlain = true := by
  simp [Definition.toJson, isPlain, allEntriesPlain, Field.isPlain_fieldsToJson]

theorem Cache.isPlain_toJson (c : Cache) : c.toJson.isPlain = true := by
  have hdefinitions := isPlain_arr_map Definition.isPlain_toJson c.definitions
  have hschemas := isPlain_arr_map Schema.isPlain_toJson c.schemas
  have hvariants := isPlain_arr_map Variant.isPlain_toJson c.variants
  have hcatalog := c.catalog.isPlain_toJson Field.isPlain_textsToJson
  have hcast : (c.castTable.toJson .str).isPlain = true :=
    c.castTable.isPlain_toJson fun _ => rfl
  rw [Cache.toJson, isPlain, allEntriesPlain_iff]
  simp [hdefinitions, hschemas, hvariants, hcatalog, hcast]

namespace PersistedCache

theorem isPlain_toJson (p : PersistedCache) : p.toJson.isPlain = true := by
  simp [PersistedCache.toJson, Fingerprint.toJson, isPlain, allEntriesPlain, Cache.isPlain_toJson]

end PersistedCache

/-! ## §2 Persisted caches -/

theorem Fingerprint.faithful : Faithful Fingerprint.read? Fingerprint.toJson := by
  intro depth f g h
  cases depth with
  | zero => cases h
  | succ depth =>
    -- The texts are kept as they are, the numbers are read back one level deeper.
    have hfields : fields? ["path", "size_bytes", "mtime_secs", "sha256"]
        (f.toJson.readBack (depth + 1)) =
        some [some (Json.str f.path), some ((Json.int f.size).readBack depth),
          some ((Json.int f.modified).readBack depth), some (.str f.sha256)] := rfl
    rw [Fingerprint.read?, hfields] at h
    simp only [required, Option.bind_eq_bind, Option.bind_eq_some_iff] at h
    obtain ⟨path, hpath, size, hsize, modified, hmodified, sha, hsha, hg⟩ := h
    obtain rfl := Option.some.inj hg
    rw [Faithful.text depth _ _ hpath, Faithful.naturalIn _ _ _ _ hsize,
      Faithful.integerIn _ _ _ _ _ hmodified, Faithful.text depth _ _ hsha]

namespace PersistedCache

theorem faithful : Faithful read? toJson := by
  intro depth p p' h
  cases depth with
  | zero => cases h
  | succ depth =>
    -- Each part is read back by itself, and each of them is faithful.
    have hfields : fields? ["format_version", "fingerprint", "config_digest", "generated_at",
        "cache"] (p.toJson.readBack (depth + 1)) =
        some [some ((Json.int p.formatVersion).readBack depth),
          some (p.fingerprint.toJson.readBack depth), some (.str p.conventionsDigest),
          some (.str p.generatedAt), some (p.cache.toJson.readBack depth)] := rfl
    rw [read?, hfields] at h
    simp only [required, defaulted, Option.bind_eq_bind, Option.bind_eq_some_iff] at h
    obtain ⟨version, hversion, fingerprint, hfingerprint, digest, hdigest, generatedAt, hgenerated,
      cache, hcache, hp⟩ := h
    obtain rfl := Option.some.inj hp
    rw [Faithful.naturalIn _ _ _ _ hversion, Fingerprint.faithful _ _ _ hfingerprint,
      Faithful.text depth _ _ hdigest, Faithful.text depth _ _ hgenerated,
      Cache.faithful _ _ _ hcache]

/-- **The file of a persisted cache** gives that persisted cache, if it gives any. -/
theorem eq_of_ofBytes?_toBytes {p q : PersistedCache} (h : ofBytes? p.toBytes = some q) :
    q = p := by
  -- Unpacked, the file is the compact text of the document.
  have hread : ofBytes? p.toBytes = read? (p.toJson.readBack maxDepth) := by
    rw [ofBytes?, toBytes, Gzip.decompress?_compress]
    simp only [Option.bind_eq_bind, Option.bind_some, parseBytes?, Bytes.text?_ofText,
      parse?_compact p.isPlain_toJson]
  exact faithful _ p q (hread.symm.trans h)

end PersistedCache

/-! ## §3 Conventions -/

namespace Conventions

theorem isPlain_toJson (c : Conventions) : c.toJson.isPlain = true := by
  have htexts := Field.isPlain_textsToJson
  rw [toJson, isPlain, allEntriesPlain_iff]
  simp [keys, isPlain, htexts]

theorem readBack_textsToJson (depth : Nat) (xs : List String) :
    (Field.textsToJson xs).readBack (depth + 1) = Field.textsToJson xs := by
  rw [Field.textsToJson, readBack_arr, List.map_map]
  rfl

theorem textsToJson_inj {xs ys : List String} (h : Field.textsToJson xs = Field.textsToJson ys) :
    xs = ys :=
  (List.map_inj_right fun _ _ h => Json.str.inj h).1 (Json.arr.inj h)

/-- Conventions have neither numbers nor deep documents, so their documents come back unchanged. -/
theorem readBack_toJson (c : Conventions) : c.toJson.readBack maxDepth = c.toJson := by
  have hdepth : maxDepth = 125 + 1 + 1 := rfl
  have htexts := readBack_textsToJson 125
  have hstr : ∀ s, (Json.str s).readBack (125 + 1) = .str s := fun _ => rfl
  have hbool : ∀ b, (Json.bool b).readBack (125 + 1) = .bool b := fun _ => rfl
  rw [hdepth, toJson, readBack_obj]
  simp only [keys, List.zip_cons_cons, List.zip_nil_left, List.map_cons, List.map_nil, htexts, hstr,
    hbool]

/-- Different conventions have different documents. -/
theorem eq_of_compact_eq {c c' : Conventions} (h : c.toJson.compact = c'.toJson.compact) :
    c = c' := by
  -- The same text is read back once as the one document and once as the other.
  have hparse := parse?_compact c.isPlain_toJson
  rw [h, parse?_compact c'.isPlain_toJson, readBack_toJson, readBack_toJson] at hparse
  have hvalues := Json.obj.inj (Option.some.inj hparse)
  simp only [keys, List.zip_cons_cons, List.zip_nil_left, List.cons.injEq, Prod.mk.injEq,
    Json.str.injEq, Json.bool.injEq, true_and, and_true] at hvalues
  obtain ⟨h1, h2, h3, h4, h5, h6, h7, h8, h9, h10, h11, h12⟩ := hvalues
  cases c
  cases c'
  simp only [Conventions.mk.injEq]
  exact ⟨h1.symm, h2.symm, h3.symm, h4.symm, h5.symm, textsToJson_inj h6.symm,
    textsToJson_inj h7.symm, textsToJson_inj h8.symm, h9.symm, h10.symm, h11.symm, h12.symm⟩

end Conventions

end SchemaGraph
