import SchemaGraph.Proofs.Model.Decoding
import SchemaGraph.Proofs.Store.Documents
import SchemaGraph.Proofs.Store.Steps

/-!
# Files of Caches Read Back

A file with a cache is read as that cache, whether it was written as a persisted cache or bare,
compressed or not.  The two forms are told apart by the version that only persisted caches have,
and compressed files by the bytes that they begin with, with which no document begins.

- `PersistedCache.recovers`: documents of persisted caches
- `Cache.ofBytes?_eq`: the contents of a file and the document in them
- `Cache.ofBytes?_toBytes`, `Cache.ofBytes?_toBytes_persisted`: contents of files
- `Cache.load_of_save`, `Cache.load_of_save_persisted`: files on a tree
- `Cache.inRange_of_load`: what is loaded can be saved and loaded again
-/

namespace SchemaGraph

open Document Json OnTree

/-! ## §1 Persisted caches -/

/-- Every number is in the range of what it is read as. -/
structure Fingerprint.InRange (f : Fingerprint) : Prop where
  size : f.size ≤ 0xFFFFFFFFFFFFFFFF
  modified_low : -0x8000000000000000 ≤ f.modified
  modified_high : f.modified ≤ 0x7FFFFFFFFFFFFFFF

theorem Fingerprint.recovers {f : Fingerprint} (hrange : f.InRange) :
    Recovers Fingerprint.read? Fingerprint.toJson f := by
  have hsize : Recovers (nat64? : Json → Option Nat) (fun n => .int n) f.size :=
    .naturalIn hrange.size (Nat.le_refl _)
  have hmodified : Recovers (int64? : Json → Option Int) .int f.modified :=
    .integerIn hrange.modified_low hrange.modified_high (by decide) (by decide)
  -- All four keys are written, and the numbers fit.
  have hfields : fields? ["path", "size_bytes", "mtime_secs", "sha256"] f.toJson =
      some [some (.str f.path), some (.int f.size), some (.int f.modified),
        some (.str f.sha256)] := rfl
  refine ⟨.obj (by simp [hsize.exact_write, hmodified.exact_write]), ?_⟩
  rw [Fingerprint.read?, hfields]
  simp only [required_some, (Recovers.text _).read_write, hsize.read_write, hmodified.read_write,
    Option.bind_eq_bind, Option.bind_some]
  rfl

/-- Every number is in the range of what it is read as. -/
structure PersistedCache.InRange (p : PersistedCache) : Prop where
  formatVersion : p.formatVersion ≤ 0xFFFFFFFF
  fingerprint : p.fingerprint.InRange
  cache : p.cache.InRange

/-- **Persisted caches** are recovered. -/
theorem PersistedCache.recovers {p : PersistedCache} (hrange : p.InRange) :
    Recovers PersistedCache.read? PersistedCache.toJson p := by
  have hversion : Recovers (nat32? : Json → Option Nat) (fun n => .int n) p.formatVersion :=
    .naturalIn hrange.formatVersion (by decide)
  have hfingerprint := Fingerprint.recovers hrange.fingerprint
  have hcache := Cache.recovers hrange.cache
  -- The keys are distinct, so each is found with what was written for it.
  have hfields : fields? ["format_version", "fingerprint", "config_digest", "generated_at",
      "cache"] p.toJson =
      some [some (.int p.formatVersion), some p.fingerprint.toJson,
        some (.str p.conventionsDigest), some (.str p.generatedAt), some p.cache.toJson] := rfl
  refine ⟨.obj ?_, ?_⟩
  · simp [hversion.exact_write, hfingerprint.exact_write, hcache.exact_write]
  · rw [PersistedCache.read?, hfields]
    simp only [required_some, defaulted_some, (Recovers.text _).read_write, hversion.read_write,
      hfingerprint.read_write, hcache.read_write, Option.bind_eq_bind, Option.bind_some]
    rfl

/-- **The contents of the file** of a persisted cache give that persisted cache. -/
theorem PersistedCache.ofBytes?_toBytes {p : PersistedCache} (hrange : p.InRange)
    (hheight : p.toJson.height ≤ maxDepth) : ofBytes? p.toBytes = some p := by
  have hp := PersistedCache.recovers hrange
  rw [ofBytes?, toBytes, Gzip.decompress?_compress]
  simp only [Option.bind_eq_bind, Option.bind_some, parseBytes?, Bytes.text?_ofText,
    hp.exact_write.parse?_compact hheight, hp.read_write]

/-! ## §2 Contents of files -/

namespace Cache

variable {c : Cache} {p : PersistedCache}

/-- A bare cache is no persisted one: it has no version. -/
theorem persisted_read?_toJson (c : Cache) : PersistedCache.read? c.toJson = none := by
  have hfields : fields? ["format_version", "fingerprint", "config_digest", "generated_at",
      "cache"] c.toJson = some [none, none, none, none, none] := rfl
  rw [PersistedCache.read?, hfields]
  rfl

theorem ofDocument?_toJson (hrange : c.InRange) : ofDocument? c.toJson = some c := by
  have hc := Cache.recovers hrange
  rw [ofDocument?, if_pos hc.exact_write.isReadable, persisted_read?_toJson, hc.read_write]
  rfl

theorem ofDocument?_persisted (hrange : p.InRange) : ofDocument? p.toJson = some p.cache := by
  have hp := PersistedCache.recovers hrange
  rw [ofDocument?, if_pos hp.exact_write.isReadable, hp.read_write]
  rfl

/-- The document in the contents of a file, compressed or not. -/
def documentIn? (contents : Bytes) : Option Json :=
  (if Gzip.hasMagic contents then Gzip.decompress? contents else some contents).bind fun plain =>
    plain.text?.bind Json.parse?

theorem ofBytes?_eq (contents : Bytes) :
    ofBytes? contents = (documentIn? contents).bind ofDocument? := by
  rw [ofBytes?, documentIn?]
  simp only [Option.bind_eq_bind, Option.bind_assoc]
  split <;> rfl

/-- Compressed contents are read as what they unpack to. -/
theorem documentIn?_compress (text : String) :
    documentIn? (Gzip.compress (Bytes.ofText text)) = parse? text := by
  have hmagic : Gzip.hasMagic (Gzip.compress (Bytes.ofText text)) = true := by
    simp [Gzip.hasMagic, Gzip.compress, Gzip.magic]
  simp only [documentIn?, hmagic, if_true, Gzip.decompress?_compress, Bytes.text?_ofText,
    Option.bind_some]

/-- No text that begins with a brace is taken for compressed contents. -/
theorem documentIn?_brace (cs : List Char) :
    documentIn? (Bytes.ofText (String.ofList ('\x7b' :: cs))) =
      parse? (String.ofList ('\x7b' :: cs)) := by
  have hmagic : Gzip.hasMagic (Bytes.ofText (String.ofList ('\x7b' :: cs))) = false := by
    rw [Bytes.ofText_ofList, List.flatMap_cons]
    rfl
  simp only [documentIn?, hmagic, Bytes.text?_ofText, Option.bind_some, Bool.false_eq_true,
    if_false]

/-- **The contents of a file with a bare cache**, compressed or not, give the cache. -/
theorem ofBytes?_toBytes (hrange : c.InRange) (hheight : c.toJson.height ≤ maxDepth)
    (compressed : Bool) : ofBytes? (c.toBytes compressed) = some c := by
  have hexact := (Cache.recovers hrange).exact_write
  cases compressed with
  | true =>
    show ofBytes? (Gzip.compress (Bytes.ofText c.toJson.compact)) = some c
    rw [ofBytes?_eq, documentIn?_compress, hexact.parse?_compact hheight, Option.bind_some,
      ofDocument?_toJson hrange]
  | false =>
    -- The document of a cache is an object, so its text does not look compressed.
    obtain ⟨cs, hcs⟩ : ∃ cs, c.toJson.pretty = String.ofList ('\x7b' :: cs) := ⟨_, rfl⟩
    show ofBytes? (Bytes.ofText c.toJson.pretty) = some c
    rw [ofBytes?_eq, hcs, documentIn?_brace, ← hcs, hexact.parse?_pretty hheight,
      Option.bind_some, ofDocument?_toJson hrange]

/-- **The contents of a file with a persisted cache** give its cache. -/
theorem ofBytes?_toBytes_persisted (hrange : p.InRange) (hheight : p.toJson.height ≤ maxDepth) :
    ofBytes? p.toBytes = some p.cache := by
  have hexact := (PersistedCache.recovers hrange).exact_write
  rw [PersistedCache.toBytes, ofBytes?_eq, documentIn?_compress, hexact.parse?_compact hheight,
    Option.bind_some, ofDocument?_persisted hrange]

end Cache

/-! ## §3 Files -/

namespace Cache

variable {c : Cache} {p : PersistedCache} {path : Path} {t t' : FileTree}

/-- A file is loaded as the cache that its contents give, if they give one. -/
theorem load_eq {contents : Bytes} (hread : t.read path = .ok contents) :
    (load path : Task OnTree Cache) t =
      ((ofBytes? contents).elim (.error (.corruptCache path)) .ok, t) := by
  have hfile : (FileSystem.read path : Task OnTree _) t = (.ok (.ok contents), t) := by
    rw [← hread]
    rfl
  rw [load, task_bind_ok (ofIo_ok hfile)]
  cases ofBytes? contents <;> rfl

theorem load_apply {contents : Bytes} (hread : t.read path = .ok contents)
    (hcontents : ofBytes? contents = some c) : (load path : Task OnTree Cache) t = (.ok c, t) := by
  rw [load_eq hread, hcontents, Option.elim_some]

/-- **A file with a bare cache**, compressed if its extension says so, is loaded as the cache. -/
theorem load_of_save (hrange : c.InRange) (hheight : c.toJson.height ≤ maxDepth)
    (hsave : (c.save path : Task OnTree Unit) t = (.ok (), t')) :
    (load path : Task OnTree Cache) t' = (.ok c, t') :=
  load_apply (FileTree.read_of_writeWithDirectory (eq_of_ofIo_ok hsave))
    (ofBytes?_toBytes hrange hheight _)

/-- A document of either form is read as a cache with handles of 32 bits. -/
theorem inRange_of_ofDocument? {j : Json} (h : ofDocument? j = some c) : c.InRange := by
  unfold ofDocument? at h
  split at h
  -- A bare cache is read with handles of 32 bits.
  · cases hpersisted : PersistedCache.read? j with
    | none =>
      rw [hpersisted] at h
      exact Ensures.cache j c h
    | some p =>
      rw [hpersisted] at h
      obtain rfl : p.cache = c := Option.some.inj h
      -- The cache is one of the parts that the persisted cache was read from.
      rw [PersistedCache.read?] at hpersisted
      split at hpersisted
      next =>
        simp only [Option.bind_eq_bind, Option.bind_eq_some_iff, Option.pure_def,
          Option.some.injEq] at hpersisted
        obtain ⟨_, -, _, -, _, -, _, -, _, hcache, rfl⟩ := hpersisted
        exact Ensures.cache.required hcache
      next => cases hpersisted
  · cases h

/-- **What is loaded** has handles of 32 bits. -/
theorem inRange_of_load (h : (load path : Task OnTree Cache) t = (.ok c, t')) : c.InRange := by
  cases hread : t.read path with
  | error e =>
    have hfile : (FileSystem.read path : Task OnTree _) t = (.ok (.error e), t) := by
      rw [← hread]
      rfl
    rw [load, task_bind_error (ofIo_error hfile)] at h
    cases h
  | ok contents =>
    rw [load_eq hread] at h
    cases hcontents : ofBytes? contents with
    | none =>
      rw [hcontents] at h
      cases h
    | some c' =>
      rw [hcontents] at h
      -- Whatever the form of the file is, a document in it was read as a cache.
      obtain rfl : c' = c := Except.ok.inj (congrArg Prod.fst h)
      rw [ofBytes?_eq] at hcontents
      obtain ⟨j, -, hj⟩ := Option.bind_eq_some_iff.1 hcontents
      exact inRange_of_ofDocument? hj

/-- **A file with a persisted cache** is loaded as its cache. -/
theorem load_of_save_persisted (hrange : p.InRange) (hheight : p.toJson.height ≤ maxDepth)
    (hsave : (p.save path : Task OnTree Unit) t = (.ok (), t')) :
    (load path : Task OnTree Cache) t' = (.ok p.cache, t') :=
  load_apply (FileTree.read_of_writeWithDirectory (eq_of_ofIo_ok hsave))
    (ofBytes?_toBytes_persisted hrange hheight)

end Cache

end SchemaGraph
