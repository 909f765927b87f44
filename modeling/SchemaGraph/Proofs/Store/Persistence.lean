import SchemaGraph.Proofs.Files.Siblings
import SchemaGraph.Proofs.Store.Extracted

/-!
# Documents That Stay

The documents of a store are files side by side in its directory, each named after its module.  A
document that was saved is found again, and it stays as long as no other module has a document of
the same name, and no document is a link to another file.  The files of modules stay as well, unless
a document is written over one.

- `Store.placeFor_inj`: documents with different names are at different places
- `Store.persisted?_saved`: what was saved is found
- `Store.persisted?_saved_of_ne`: what was saved before is still found
- `Store.keeps_obtain`: nothing but documents is written
-/

namespace SchemaGraph

open OnTree FileTree

/-! ## §1 Names of documents -/

namespace Path

theorem mem_splitName {name : String} {c : Char} (hc : c ∈ (splitName name).1.toList) :
    c ∈ name.toList := by
  unfold splitName at hc
  split at hc
  · exact hc
  · exact hc
  next stem _ hbefore => exact Text.mem_of_beforeLast? hbefore hc

/-- The name of a file has no slashes. -/
theorem notMem_slash_stem? {p : Path} {stem : String} (h : p.stem? = some stem) :
    '/' ∉ stem.toList := by
  obtain ⟨name, hname, rfl⟩ := Option.map_eq_some_iff.1 h
  refine fun hmem => ?_
  have hslash : '/' ∈ name.toList := mem_splitName hmem
  -- The name is what is left of the last part, and no part has a slash in it.
  unfold fileName? at hname
  split at hname
  next part position hlast =>
    have hpart : (part, position) ∈ (Text.splitAt '/' p).zipIdx :=
      (List.mem_filter.1 (List.mem_of_getLast? hlast)).1
    obtain ⟨piece, hpiece, rfl⟩ := List.mem_map.1 (List.fst_mem_of_mem_zipIdx hpart)
    split at hname
    · cases hname
    · obtain rfl := Option.some.inj hname
      exact Text.notMem_of_mem_pieces hpiece (by simpa using hslash)
  next => cases hname

end Path

namespace Store

variable {s : Store} {t t' : FileTree} {f g : Fingerprint} {c c' : Conventions} {cache : Cache}
  {key key' : Path}

/-- The name of the document of a module. -/
def documentName (key : Path) : String := (Path.stem? key).getD "module" ++ "Cache.json.gz"

theorem pathFor_eq (s : Store) (key : Path) :
    s.pathFor key = Path.join s.directory (documentName key) := rfl

theorem isPlain_documentName (key : Path) : Path.IsPlain (documentName key) := by
  have hchars : (documentName key).toList =
      ((Path.stem? key).getD "module").toList ++ ("Cache.json.gz" : String).toList :=
    String.toList_append
  -- The name ends in the suffix, which is too long for the names with a meaning of their own.
  have hlong : 2 < (documentName key).toList.length := by
    rw [hchars, List.length_append]
    exact Nat.lt_of_lt_of_le (by decide) (Nat.le_add_left _ _)
  have hne : ∀ name : String, name.toList.length ≤ 2 → documentName key ≠ name := by
    rintro name hname rfl
    omega
  refine ⟨hne _ (by decide), hne _ (by decide), hne _ (by decide), ?_⟩
  -- Neither the stem nor the suffix has a slash.
  rw [hchars, List.mem_append, not_or]
  refine ⟨?_, by decide⟩
  cases hstem : Path.stem? key with
  | none => exact (by decide : '/' ∉ ("module" : String).toList)
  | some stem => exact Path.notMem_slash_stem? hstem

/-- The path of a document names the directory of the store with the name at its end. -/
theorem exists_spot_pathFor (s : Store) (t : FileTree) :
    ∃ directory, ∀ key, t.spot (s.pathFor key) = directory ++ [documentName key] := by
  obtain ⟨directory, hdirectory⟩ := exists_spot_join t s.directory
  exact ⟨directory, fun key => hdirectory _ (isPlain_documentName key)⟩

/-- The document of the module is no link. -/
def IsOwn (s : Store) (t : FileTree) (key : Path) : Prop :=
  t.isLink (t.spot (s.pathFor key)) = false

theorem IsOwn.placeFor_eq (h : s.IsOwn t key) : s.placeFor t key = t.spot (s.pathFor key) :=
  follow_of_not_isLink h

theorem IsOwn.keeps {new : Location → Bytes → Prop} (h : s.IsOwn t key)
    (hkeeps : FileTree.Keeps new t t') : s.IsOwn t' key := by
  rwa [IsOwn, isLink, hkeeps.spot_eq, hkeeps.links]

/-- All documents are in one directory, unless some of them are links. -/
theorem dropLast_placeFor (h : s.IsOwn t key) (h' : s.IsOwn t key') :
    (s.placeFor t key).dropLast = (s.placeFor t key').dropLast := by
  obtain ⟨directory, hdirectory⟩ := s.exists_spot_pathFor t
  rw [h.placeFor_eq, h'.placeFor_eq, hdirectory, hdirectory, List.dropLast_concat,
    List.dropLast_concat]

/-- Two documents at one place are one document, unless one of them is a link. -/
theorem placeFor_inj (h : s.IsOwn t key) (h' : s.IsOwn t key') :
    s.placeFor t key = s.placeFor t key' ↔ s.pathFor key = s.pathFor key' := by
  obtain ⟨directory, hdirectory⟩ := s.exists_spot_pathFor t
  constructor
  · intro hplace
    rw [h.placeFor_eq, h'.placeFor_eq, hdirectory, hdirectory, List.append_cancel_left_eq,
      List.singleton_inj] at hplace
    rw [pathFor_eq, pathFor_eq, hplace]
  · intro hpath
    rw [placeFor, placeFor, hpath]

/-! ## §2 Saving -/

/-- **Saving a document** leaves room for the others. -/
theorem writable_saved (h : t.Writable (s.pathFor key)) (hf : t.Writable (s.pathFor f.path))
    (c : Conventions) (cache : Cache) : (s.saved t f c cache).Writable (s.pathFor key) := by
  rw [saved_eq]
  exact h.write_sibling (isPlain_documentName _) (isPlain_documentName _) hf _

/-- What a document tells is its contents, so it is found as it was saved. -/
theorem documentAt?_saved {m : Module} (hwritable : t.Writable (s.pathFor f.path))
    (hf : f.InRange) (hextracted : cache.ExtractedFrom m) (hsizes : cache.sizes.InRange)
    (c : Conventions) : documentAt? (s.saved t f c cache) (s.pathFor f.path) =
      some (PersistedCache.ofCache f c cache t.timestamp) := by
  obtain ⟨t', l, -, -, -, hwrite⟩ :=
    hwritable.exists_put (PersistedCache.ofCache f c cache t.timestamp).toBytes
  have hread := read_of_writeWithDirectory hwrite
  have hrange : (PersistedCache.ofCache f c cache t.timestamp).InRange :=
    ⟨(by decide : PersistedCache.currentVersion ≤ 0xFFFFFFFF), hf, hextracted.inRange hsizes⟩
  rw [saved_eq, hwrite, documentAt?, hread]
  exact PersistedCache.ofBytes?_toBytes hrange (hextracted.height_persisted_le f c _)

/-- **What was saved is found**, if it is sound. -/
theorem persisted?_saved {m : Module} (hwritable : t.Writable (s.pathFor f.path))
    (hf : f.InRange) (hextracted : cache.ExtractedFrom m) (hsizes : cache.sizes.InRange)
    (hsound : cache.problems = []) (c : Conventions) :
    s.persisted? (s.saved t f c cache) f c = some cache := by
  rw [persisted?, documentAt?_saved hwritable hf hextracted hsizes]
  simp [isUsable, PersistedCache.ofCache, hsound]

/-- **What was saved for one module** is not taken for another one, or for the module as it was. -/
theorem persisted?_saved_eq_none {m : Module} (hwritable : t.Writable (s.pathFor f.path))
    (hf : f.InRange) (hextracted : cache.ExtractedFrom m) (hsizes : cache.sizes.InRange)
    (hpath : s.pathFor g.path = s.pathFor f.path) (hne : g ≠ f) (c c' : Conventions) :
    s.persisted? (s.saved t f c cache) g c' = none := by
  rw [persisted?, hpath, documentAt?_saved hwritable hf hextracted hsizes]
  simp [isUsable, PersistedCache.ofCache, hne.symm]

/-! ## §3 What stays -/

/-- What a path leads to stays, unless the document is there. -/
theorem find_saved {p : Path} {l : Location} {e : Entry} (h : t.find p = .ok (l, e))
    (hne : l ≠ s.placeFor t f.path) (c : Conventions) (cache : Cache) :
    (s.saved t f c cache).find p = .ok (l, e) :=
  (s.keeps_saved t f c cache).find h fun _ hnew => hne hnew.1

/-- Where the documents are found again, the persisted caches are. -/
theorem persisted?_congr (h : t'.find (s.pathFor f.path) = t.find (s.pathFor f.path))
    (c : Conventions) : s.persisted? t' f c = s.persisted? t f c := by
  rw [persisted?, persisted?, documentAt?, documentAt?, read_congr h]

/-- **What was saved before is still found** after another document is saved. -/
theorem persisted?_saved_of_ne (h : s.persisted? t g c' = some cache)
    (hne : s.pathFor g.path ≠ s.pathFor f.path) (hg : s.IsOwn t g.path) (hf : s.IsOwn t f.path)
    (c : Conventions) (cache' : Cache) :
    s.persisted? (s.saved t f c cache') g c' = some cache := by
  obtain ⟨d, hd, -⟩ := Option.bind_eq_some_iff.1 h
  obtain ⟨contents, hcontents, -⟩ := Option.bind_eq_some_iff.1 hd
  obtain ⟨l, modified, hfind⟩ : ∃ l modified, t.find (s.pathFor g.path) =
      .ok (l, .file contents modified) := by
    refine find_of_read ?_
    cases hread : t.read (s.pathFor g.path) with
    | error e =>
      rw [hread] at hcontents
      cases hcontents
    | ok contents' =>
      rw [hread] at hcontents
      exact congrArg Except.ok (Option.some.inj hcontents)
  -- The place of the new document is another one, though both are in one directory.
  have hplace : l ≠ s.placeFor t f.path := by
    rw [(at?_of_find hfind).2.1]
    exact fun hl => hne ((placeFor_inj hg hf).1 hl)
  rw [persisted?_congr ((find_saved hfind hplace c cache').trans hfind.symm), h]

/-! ## §4 What is written -/

/-- A document of the store, at one of the places for them. -/
def Writes (s : Store) (t : FileTree) (l : Location) (contents : Bytes) : Prop :=
  ∃ key d, l = s.placeFor t key ∧ contents = PersistedCache.toBytes d

/-- The places for documents stay. -/
theorem writes_eq {new : Location → Bytes → Prop} (h : FileTree.Keeps new t t') :
    s.Writes t' = s.Writes t := by
  funext l contents
  simp only [Writes, placeFor, h.place_eq]

/-- **Obtaining a cache** writes nothing but documents. -/
theorem keeps_obtain (s : Store) (p : Path) (c : Conventions) (force : Bool) (t : FileTree) :
    FileTree.Keeps (s.Writes t) t ((s.obtain p c force : OnTree _) t).2 := by
  rw [obtain_apply]
  split
  next => exact .refl t
  next f _ =>
    split
    next => exact .refl t
    next =>
      split
      next => exact .refl t
      -- Only an extraction writes, and only to the document of its module.
      next cache _ =>
        simp only
        rw [saved_eq]
        exact .writeWithDirectory _ t ⟨f.path, _, rfl, rfl⟩

/-- A document is no module. -/
theorem extract?_of_document {p : Path} {d : PersistedCache} (h : t.read p = .ok d.toBytes)
    (c : Conventions) : t.extract? p c = none := by
  rw [FileTree.extract?, h]
  simp [extractContents?, PersistedCache.toBytes, Gzip.text?_compress, Except.toOption]

/-- **A module stays where it is** if it is there in the end: a document that had been written over
it would still be there. -/
theorem find_of_keeps {t₁ t₂ : FileTree} {p : Path}
    (h : FileTree.Keeps (s.Writes t) t t₁) (h' : FileTree.Keeps (s.Writes t) t₁ t₂)
    (hend : t₂.find p = t.find p) (hextract : (t.extract? p c).isSome) :
    t₁.find p = t.find p := by
  -- It could be extracted, so there is a file that is read as a module.
  obtain ⟨contents, hread, -⟩ :
      ∃ contents, t.read p = .ok contents ∧ extractContents? (Path.isYaml p) c contents ≠ none := by
    rw [FileTree.extract?] at hextract
    cases hread : t.read p with
    | error e =>
      rw [hread] at hextract
      cases hextract
    | ok contents =>
      refine ⟨contents, rfl, ?_⟩
      rw [hread] at hextract
      exact Option.isSome_iff_ne_none.1 hextract
  obtain ⟨l, modified, hfind⟩ := find_of_read hread
  obtain ⟨-, -, hat⟩ := at?_of_find (hend.trans hfind)
  -- The file that is there in the end has been there all the time, or it is a document.
  rcases h'.files _ _ _ hat with hat | ⟨key, d, -, rfl⟩
  · obtain ⟨hlocate, rfl, -⟩ := at?_of_find hfind
    rw [← h.place_eq] at hat
    rw [hfind, ← h.place_eq]
    exact find_of_locate (h.spot_eq p ▸ h.locate hlocate) hat
  -- A document is no module, so it cannot have been extracted.
  · rw [extract?_of_document hread] at hextract
    cases hextract

end Store

end SchemaGraph
