import SchemaGraph.Proofs.Store.Decoding

/-!
# Forms of Cache Files

A file with a cache is read as a persisted cache if it can be, and as a bare cache otherwise.  A
bare cache may leave out any of its parts and skips every key it does not know.  So an object that
fails to be a persisted cache is taken for a bare one, and its cache key is one of those skipped,
unless a part that bare caches have is unreadable.

- `PersistedCache.read?_obj_eq_some_iff`: the entries that a persisted cache is read from
- `Cache.read?_filter`, `Cache.read?_of_unknown`: the entries that do not count for a bare cache
- `Cache.load_of_document`: what a file is loaded as, told by its document
- `Cache.load_of_object`: when the cache key of an object is heeded
-/

namespace SchemaGraph

open Document Json OnTree

/-! ## §1 Records with other keys -/

/-- Entries under other keys do not count when a record is read. -/
theorem fields?_filter {names : List String} (keep : String → Bool)
    (hnames : ∀ name ∈ names, keep name = true) (entries : List (String × Json)) :
    fields? names (Json.obj (entries.filter fun e => keep e.1)) =
      fields? names (Json.obj entries) := by
  -- A key that is asked for stands there as often as before, and with the same values.
  have honce : knownOnce names (entries.filter fun e => keep e.1) = knownOnce names entries := by
    rw [knownOnce, knownOnce, Bool.eq_iff_iff, List.all_eq_true, List.all_eq_true]
    refine forall_congr' fun name => forall_congr' fun hname => ?_
    have hkept : (entries.filter fun e => keep e.1).filter (fun e => e.1 == name) =
        entries.filter (fun e => e.1 == name) := by
      rw [List.filter_filter]
      refine List.filter_congr fun e _ => ?_
      by_cases he : e.1 = name <;> simp [he, hnames name hname]
    rw [hkept]
  have hlookup : (names.map fun name => (entries.filter fun e => keep e.1).lookup name) =
      names.map fun name => entries.lookup name :=
    List.map_congr_left fun name hname => lookup_filter keep (hnames name hname) entries
  rw [fields?_obj, fields?_obj, honce, hlookup]

theorem required_eq_some_iff {α : Type} {read : Json → Option α} {slot : Option Json} {a : α} :
    required read slot = some a ↔ ∃ v, slot = some v ∧ read v = some a := by
  cases slot with
  | none => exact iff_of_false nofun nofun
  | some v => simp [required]

/-! ## §2 Persisted caches -/

namespace PersistedCache

variable {p : PersistedCache} {entries : List (String × Json)}

/-- The keys of a persisted cache. -/
def keyNames : List String :=
  ["format_version", "fingerprint", "config_digest", "generated_at", "cache"]

/-- The entries of a document that is read as the persisted cache: no key of a persisted cache
stands there twice, and each part is read from the value of its key.  Only the digest may be left
out. -/
structure ReadFrom (entries : List (String × Json)) (p : PersistedCache) : Prop where
  once : knownOnce keyNames entries = true
  formatVersion : ∃ v, entries.lookup "format_version" = some v ∧ nat32? v = some p.formatVersion
  fingerprint :
    ∃ v, entries.lookup "fingerprint" = some v ∧ Fingerprint.read? v = some p.fingerprint
  conventionsDigest :
    defaulted "" text? (entries.lookup "config_digest") = some p.conventionsDigest
  generatedAt : ∃ v, entries.lookup "generated_at" = some v ∧ text? v = some p.generatedAt
  cache : ∃ v, entries.lookup "cache" = some v ∧ Cache.read? v = some p.cache

/-- **Persisted caches are read** from the entries that hold all their parts. -/
theorem read?_obj_eq_some_iff : read? (.obj entries) = some p ↔ ReadFrom entries p := by
  -- A key that stands there twice is a fault by itself; apart from that each part is on its own.
  by_cases honce : knownOnce keyNames entries = true
  · have hfields : fields? keyNames (Json.obj entries) =
        some (keyNames.map fun name => entries.lookup name) := by
      rw [fields?_obj, if_pos honce]
    rw [keyNames] at hfields
    rw [read?, hfields]
    simp only [List.map_cons, List.map_nil, Option.bind_eq_bind, Option.bind_eq_some_iff,
      required_eq_some_iff, Option.pure_def, Option.some.injEq]
    constructor
    · rintro ⟨_, hversion, _, hfingerprint, _, hdigest, _, htime, _, hcache, rfl⟩
      exact ⟨honce, hversion, hfingerprint, hdigest, htime, hcache⟩
    · rintro ⟨-, hversion, hfingerprint, hdigest, htime, hcache⟩
      exact ⟨_, hversion, _, hfingerprint, _, hdigest, _, htime, _, hcache, rfl⟩
  · have hfields : fields? keyNames (Json.obj entries) = none := by
      rw [fields?_obj, if_neg honce]
    rw [keyNames] at hfields
    rw [read?, hfields]
    exact iff_of_false (Option.some_ne_none _).symm fun h => honce h.once

end PersistedCache

namespace Cache

variable {c : Cache} {p : PersistedCache} {j : Json} {entries : List (String × Json)}

/-! ## §3 Bare caches -/

/-- The keys of a bare cache. -/
def keyNames : List String :=
  ["definitions", "enumerated_value_catalog", "schemas", "variants", "cast_table"]

/-- Reading a bare cache skips all other keys. -/
theorem read?_filter (keep : String → Bool) (hkeep : ∀ name ∈ keyNames, keep name = true)
    (entries : List (String × Json)) :
    read? (.obj (entries.filter fun e => keep e.1)) = read? (.obj entries) := by
  have hfields := fields?_filter keep hkeep entries
  rw [keyNames] at hfields
  rw [read?, read?, hfields]

/-- Without any key of a bare cache the empty cache is read. -/
theorem read?_of_unknown (h : ∀ e ∈ entries, e.1 ∉ keyNames) :
    read? (.obj entries) = some .empty := by
  have hnone : entries.filter (fun e => keyNames.contains e.1) = [] :=
    List.filter_eq_nil_iff.2 fun e he => by simpa using h e he
  rw [← read?_filter keyNames.contains fun name hname => List.contains_iff_mem.2 hname, hnone]
  rfl

/-! ## §4 Files -/

variable {path : Path} {t : FileTree} {contents : Bytes}

/-- What a document is loaded as. -/
theorem load_of_document (hread : t.read path = .ok contents)
    (hdocument : documentIn? contents = some j) :
    (load path : Task OnTree Cache) t =
      ((ofDocument? j).elim (.error (.corruptCache path)) .ok, t) := by
  rw [load_eq hread, ofBytes?_eq, hdocument, Option.bind_some]

/-- The cache key of the entries is heeded: they are those of a persisted cache, and the answer is
the cache that is read from that key, or else the answer is that the file is corrupt. -/
def HeedsCacheKey (entries : List (String × Json)) (path : Path) (answer : Except Failure Cache) :
    Prop :=
  (∃ p : PersistedCache, p.ReadFrom entries ∧ answer = .ok p.cache) ∨
    answer = .error (.corruptCache path)

/-- The object is taken for a bare cache: it can be read, and as a bare cache only. -/
structure TakenForBare (entries : List (String × Json)) : Prop where
  readable : (Json.obj entries).isReadable = true
  notPersisted : ∀ p : PersistedCache, ¬ p.ReadFrom entries
  bare : read? (.obj entries) ≠ none

theorem TakenForBare.ofDocument? (h : TakenForBare entries) :
    Cache.ofDocument? (.obj entries) = read? (.obj entries) := by
  have hpersisted : PersistedCache.read? (.obj entries) = none :=
    Option.eq_none_iff_forall_ne_some.2 fun p hp =>
      h.notPersisted p (PersistedCache.read?_obj_eq_some_iff.1 hp)
  rw [Cache.ofDocument?, if_pos h.readable, hpersisted]
  rfl

/-- An answer heeds the cache key unless the object is taken for a bare cache. -/
theorem heedsCacheKey_of_not_takenForBare (h : ¬ TakenForBare entries) (path : Path) :
    HeedsCacheKey entries path
      ((Cache.ofDocument? (.obj entries)).elim (.error (.corruptCache path)) .ok) := by
  rw [Cache.ofDocument?]
  by_cases hreadable : (Json.obj entries).isReadable = true
  · rw [if_pos hreadable]
    cases hp : PersistedCache.read? (.obj entries) with
    | some p => exact .inl ⟨p, PersistedCache.read?_obj_eq_some_iff.1 hp, rfl⟩
    | none =>
      cases hc : read? (.obj entries) with
      | none => exact .inr rfl
      | some c =>
        -- It can be read as a bare cache only, which is what was ruled out.
        refine absurd ⟨hreadable, fun p hentries => ?_, by simp [hc]⟩ h
        rw [PersistedCache.read?_obj_eq_some_iff.2 hentries] at hp
        cases hp
  · rw [if_neg hreadable]
    exact .inr rfl

/-- **Objects in cache files**: the cache key is heeded exactly if the object is not taken for a
bare cache.  An object that is taken for one is loaded as the bare cache that it is without its
cache key.  If it has no key of a bare cache, like a persisted cache that lost a part, that is the
empty cache. -/
theorem load_of_object {t : FileTree} {path : Path} {contents : Bytes}
    {entries : List (String × Json)} (hread : t.read path = .ok contents)
    (hdocument : documentIn? contents = some (.obj entries)) :
    let answer := ((load path : Task OnTree Cache) t).1
    (HeedsCacheKey entries path answer ↔ ¬ TakenForBare entries) ∧
      (TakenForBare entries →
        ∃ c, read? (.obj (entries.filter (·.1 ≠ "cache"))) = some c ∧ answer = .ok c) ∧
      (TakenForBare entries → (∀ e ∈ entries, e.1 ∉ keyNames) → answer = .ok .empty) := by
  intro answer
  have hanswer : answer =
      (Cache.ofDocument? (.obj entries)).elim (.error (.corruptCache path)) .ok :=
    congrArg Prod.fst (load_of_document hread hdocument)
  have hbare (h : TakenForBare entries) : ∃ c, read? (.obj entries) = some c ∧ answer = .ok c := by
    obtain ⟨c, hc⟩ := Option.ne_none_iff_exists'.1 h.bare
    exact ⟨c, hc, by rw [hanswer, h.ofDocument?, hc, Option.elim_some]⟩
  refine ⟨⟨?_, ?_⟩, fun h => ?_, fun h hunknown => ?_⟩
  · intro hheeds h
    obtain ⟨c, -, hc⟩ := hbare h
    rcases hheeds with ⟨p, hp, -⟩ | hcorrupt
    · exact h.notPersisted p hp
    · rw [hc] at hcorrupt
      cases hcorrupt
  · intro h
    rw [hanswer]
    exact heedsCacheKey_of_not_takenForBare h path
  · obtain ⟨c, hc, hload⟩ := hbare h
    refine ⟨c, ?_, hload⟩
    rw [read?_filter (· ≠ "cache") (by decide), hc]
  · obtain ⟨c, hc, hload⟩ := hbare h
    rw [read?_of_unknown hunknown] at hc
    rw [hload, Option.some.inj hc]

/-- A file with a document at the root. -/
def treeWith (j : Json) : FileTree :=
  (FileTree.empty []).put ["CoreCache.json"] (.file (Bytes.ofText j.compact) 0)

theorem read_treeWith (j : Json) :
    (treeWith j).read "/CoreCache.json" = .ok (Bytes.ofText j.compact) := rfl

theorem documentIn?_compact (hexact : Exact (.obj entries))
    (hheight : (Json.obj entries).height ≤ maxDepth) :
    documentIn? (Bytes.ofText (Json.obj entries).compact) = some (.obj entries) := by
  obtain ⟨cs, hcs⟩ : ∃ cs, (Json.obj entries).compact = String.ofList ('\x7b' :: cs) := by
    cases entries <;> exact ⟨_, rfl⟩
  rw [hcs, documentIn?_brace, ← hcs, hexact.parse?_compact hheight]

/-- A cache with a schema, to which nothing leads. -/
def graphicSchemas : Cache := ⟨[], .empty, [⟨"Verse.GraphicData", []⟩], [], .empty⟩

theorem graphicSchemas_inRange : graphicSchemas.InRange := by
  constructor <;> simp [graphicSchemas]

/-- The entries of a persisted cache with that cache. -/
def wholeEntries : List (String × Json) :=
  [("format_version", .int 1), ("fingerprint", (⟨"/Core.json", 2, 0, ""⟩ : Fingerprint).toJson),
    ("generated_at", .str ""), ("cache", graphicSchemas.toJson)]

theorem load_of_object_whole :
    documentIn? (Bytes.ofText (Json.obj wholeEntries).compact) = some (.obj wholeEntries) ∧
      HeedsCacheKey wholeEntries "/CoreCache.json"
        ((load "/CoreCache.json" : Task OnTree Cache) (treeWith (.obj wholeEntries))).1 := by
  have hfingerprint : Exact (⟨"/Core.json", 2, 0, ""⟩ : Fingerprint).toJson :=
    (Fingerprint.recovers ⟨by decide, by decide, by decide⟩).exact_write
  have hexact : Exact (.obj wholeEntries) := by
    refine .obj ?_
    simp [wholeEntries, hfingerprint, (Cache.recovers graphicSchemas_inRange).exact_write,
      Exact.int]
  have hdocument : documentIn? (Bytes.ofText (Json.obj wholeEntries).compact) =
      some (.obj wholeEntries) := documentIn?_compact hexact (by decide)
  obtain ⟨hheeds, -⟩ := load_of_object (read_treeWith _) hdocument
  refine ⟨hdocument, hheeds.2 fun h => ?_⟩
  have hread : ∃ p, PersistedCache.read? (.obj wholeEntries) = some p := ⟨_, rfl⟩
  obtain ⟨p, hp⟩ := hread
  exact h.notPersisted p (PersistedCache.read?_obj_eq_some_iff.1 hp)

/-- Only the version and the cache are left of a persisted cache: its schema is not loaded, and
nothing is reported. -/
theorem load_damaged :
    let entries := [("format_version", .int 1), ("cache", graphicSchemas.toJson)]
    documentIn? (Bytes.ofText (Json.obj entries).compact) = some (.obj entries) ∧
      ((load "/CoreCache.json" : Task OnTree Cache) (treeWith (.obj entries))).1 = .ok .empty ∧
      ¬ HeedsCacheKey entries "/CoreCache.json"
        ((load "/CoreCache.json" : Task OnTree Cache) (treeWith (.obj entries))).1 := by
  intro entries
  have hexact : Exact (.obj entries) := by
    refine .obj ?_
    simp [entries, (Cache.recovers graphicSchemas_inRange).exact_write, Exact.int]
  have hdocument : documentIn? (Bytes.ofText (Json.obj entries).compact) = some (.obj entries) :=
    documentIn?_compact hexact (by decide)
  have hload : ((load "/CoreCache.json" : Task OnTree Cache) (treeWith (.obj entries))).1 =
      .ok .empty := by
    rw [load_of_document (read_treeWith _) hdocument]
    rfl
  refine ⟨hdocument, hload, ?_⟩
  rw [hload]
  rintro (⟨p, hp, -⟩ | hcorrupt)
  · obtain ⟨v, hv, -⟩ := hp.fingerprint
    cases hv
  · cases hcorrupt

end Cache

end SchemaGraph
