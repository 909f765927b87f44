import Mathlib.Data.List.Induction
import SchemaGraph.Proofs.Merge.NormalForm
import SchemaGraph.Proofs.Merge.Repetition

/-!
# Merging Tables

A merge unites two catalogs key by key.  Where both have a key, the values of both are listed once
each; where only one has it, its list is taken as it stands.  So what a merge adds is without
repetition only as far as the incoming lists are, and merging the same catalog again lists anew
exactly what was taken as it stood.  Of the cast tables the incoming one wins.

- `firstAppearances_distinct`: what interning makes of a list of values
- `mergeCatalogs_again_iff`: when uniting with the same catalog again changes nothing
- `Cache.merge_unites_tables`: both tables of a merged cache, and of a second merge
-/

namespace SchemaGraph

/-! ## §1 First appearances -/

section Values

variable {κ : Type} [DecidableEq κ]

/-- `ys` lists the values of `xs`, each once, in the order in which they appear first. -/
structure FirstAppearances (xs ys : List κ) : Prop where
  mem : ∀ x, x ∈ ys ↔ x ∈ xs
  nodup : ys.Nodup
  order : ys.Pairwise fun x y => xs.idxOf x < xs.idxOf y

/-- **Without repetition** the first appearances stay, in their order. -/
theorem firstAppearances_distinct (xs : List κ) : FirstAppearances xs (distinct xs) :=
  ⟨mem_distinct xs, nodup_distinct xs, pairwise_distinct xs⟩

/-- Values that are listed already add nothing. -/
theorem distinct_append_of_subset {xs ys : List κ} (h : ∀ y ∈ ys, y ∈ xs) :
    distinct (xs ++ ys) = distinct xs := by
  have hknown : ∀ y ∈ ys, id y ∈ keysWith id [] xs := fun y hy => key_mem_keysWith [] (h y hy)
  rw [distinct, newcomers_append, newcomers_eq_nil hknown, List.append_nil, distinct]

theorem distinct_eq_self_iff {xs : List κ} : distinct xs = xs ↔ xs.Nodup := by
  constructor
  · intro h
    rw [← h]
    exact nodup_distinct xs
  · intro h
    refine newcomers_eq_self ?_ fun x _ hx => by cases hx
    rwa [List.map_id]

end Values

/-! ## §2 Tables -/

namespace SortedMap

variable {α : Type}

theorem mem_keys_iff {m : SortedMap α} {key : String} : key ∈ m.keys ↔ m.get? key ≠ none := by
  rw [keys, get?]
  induction m.entries with
  | nil => simp [find]
  | cons e rest ih =>
    obtain ⟨k, v⟩ := e
    rw [List.map_cons, List.mem_cons, ih, find]
    by_cases hk : k = key
    · simp [hk]
    · rw [if_neg hk, or_iff_right fun h => hk h.symm]

end SortedMap

section Catalogs

variable {m m' : SortedMap (List String)} {key : String}

/-- The keys of united catalogs are those of both. -/
theorem mem_keys_mergeCatalogs :
    key ∈ (mergeCatalogs m m').keys ↔ key ∈ m.keys ∨ key ∈ m'.keys := by
  simp only [SortedMap.mem_keys_iff, get?_mergeCatalogs]
  cases m.get? key <;> cases m'.get? key <;> simp

/-- **Uniting again**: a list of both catalogs has all values already, and a list that was taken
as it stood loses its repetitions. -/
theorem get?_mergeCatalogs_again (m m' : SortedMap (List String)) (key : String) :
    (mergeCatalogs (mergeCatalogs m m') m').get? key =
      match m.get? key with
      | none => (m'.get? key).map distinct
      | some _ => (mergeCatalogs m m').get? key := by
  simp only [get?_mergeCatalogs]
  cases hnew : m'.get? key with
  | none => cases m.get? key <;> rfl
  | some new =>
    cases m.get? key with
    | none => exact congrArg some (distinct_append_of_subset fun _ hy => hy)
    | some old =>
      have hsubset : ∀ y ∈ new, y ∈ old ++ new := fun y hy => List.mem_append_right _ hy
      exact congrArg some ((distinct_distinct_append _ _).trans
        (distinct_append_of_subset hsubset))

/-- Uniting again changes nothing exactly if no list that was taken as it stood repeats a
value. -/
theorem mergeCatalogs_again_iff :
    mergeCatalogs (mergeCatalogs m m') m' = mergeCatalogs m m' ↔
      ∀ key values, m.get? key = none → m'.get? key = some values → values.Nodup := by
  constructor
  · intro h key values hm hm'
    have hkey : (mergeCatalogs (mergeCatalogs m m') m').get? key =
        (mergeCatalogs m m').get? key := by rw [h]
    rw [get?_mergeCatalogs_again, get?_mergeCatalogs m, hm, hm'] at hkey
    exact distinct_eq_self_iff.1 (Option.some.inj hkey)
  · intro h
    apply SortedMap.ext_get?
    intro key
    -- Only a list that the first catalog lacks can change, and it has no repetition to lose.
    rw [get?_mergeCatalogs_again]
    cases hm : m.get? key with
    | some old => rfl
    | none =>
      rw [get?_mergeCatalogs, hm]
      cases hm' : m'.get? key with
      | none => rfl
      | some values => exact congrArg some (distinct_eq_self_iff.2 (h key values hm hm'))

end Catalogs

/-! ## §3 The tables of a merged cache -/

namespace Cache

/-- **Merged tables**: the catalog has the keys of both caches.  For a key of both it lists the
values of the base and then those of the other cache, each once, by first appearance; a key of
one of them keeps its list as it stands.  A cast is that of the other cache if it has one, and
that of the base otherwise.  Merging the other cache again never changes the casts, and changes
the catalog only by repetitions that were taken as they stood. -/
theorem merge_unites_tables (strategy strategy' : MergeStrategy) (base other : Cache) :
    let merged := base.merge strategy other
    let again := merged.merge strategy' other
    (∀ key, key ∈ merged.catalog.keys ↔ key ∈ base.catalog.keys ∨ key ∈ other.catalog.keys) ∧
      (∀ key old new, base.catalog.get? key = some old → other.catalog.get? key = some new →
        ∃ values, merged.catalog.get? key = some values ∧ FirstAppearances (old ++ new) values) ∧
      (∀ key, base.catalog.get? key = none →
        merged.catalog.get? key = other.catalog.get? key) ∧
      (∀ key, other.catalog.get? key = none →
        merged.catalog.get? key = base.catalog.get? key) ∧
      (∀ wrapper, merged.castTable.get? wrapper =
        (other.castTable.get? wrapper).or (base.castTable.get? wrapper)) ∧
      again.castTable = merged.castTable ∧
      (again.catalog = merged.catalog ↔
        ∀ key values, base.catalog.get? key = none → other.catalog.get? key = some values →
          values.Nodup) := by
  intro merged again
  have hcatalog : ∀ key, merged.catalog.get? key =
      match other.catalog.get? key with
      | none => base.catalog.get? key
      | some new =>
        match base.catalog.get? key with
        | none => some new
        | some values => some (distinct (values ++ new)) := get?_mergeCatalogs _ _
  refine ⟨fun key => mem_keys_mergeCatalogs, fun key old new hold hnew => ?_, fun key hbase => ?_,
    fun key hother => ?_, fun wrapper => ?_, mergeCasts_again _ _, mergeCatalogs_again_iff⟩
  · exact ⟨distinct (old ++ new), by rw [hcatalog, hold, hnew], firstAppearances_distinct _⟩
  · rw [hcatalog, hbase]
    cases other.catalog.get? key <;> rfl
  · rw [hcatalog, hother]
  · show (mergeCasts base.castTable other.castTable).get? wrapper = _
    rw [get?_mergeCasts]
    cases other.castTable.get? wrapper <;> rfl

theorem merge_unites_tables_patch :
    let base : Cache := { lampCache with catalog := SortedMap.empty.insert "Def" ["B", "A"] }
    let merged := base.merge .append patchCache
    base.catalog.get? "Def" = some ["B", "A"] ∧ patchCache.catalog.get? "Def" = some ["A", "A"] ∧
      (∃ values, merged.catalog.get? "Def" = some values ∧
        FirstAppearances ["B", "A", "A", "A"] values) ∧
      base.catalog.get? "Cast" = none ∧ merged.catalog.get? "Cast" = none ∧
      (merged.merge .overwrite patchCache).catalog = merged.catalog := by
  intro base merged
  have hbase : base.catalog.get? "Def" = some ["B", "A"] := rfl
  have hpatch : patchCache.catalog.get? "Def" = some ["A", "A"] := rfl
  obtain ⟨-, hboth, honly, -, -, -, hagain⟩ :=
    merge_unites_tables .append .overwrite base patchCache
  refine ⟨hbase, hpatch, hboth "Def" _ _ hbase hpatch, rfl, honly "Cast" rfl, hagain.2 ?_⟩
  -- The one key of the patch is a key of the base.
  intro key values hnone hsome
  by_cases hkey : "Def" = key
  · subst hkey
    cases hbase.symm.trans hnone
  · have hget : patchCache.catalog.get? key = none := by
      rw [patchCache, SortedMap.get?_insert, if_neg hkey, SortedMap.get?_empty]
    cases hget.symm.trans hsome

/-- A list that names an instance twice is taken as it stands by a base without its key, and a
second merge of the same cache shortens it. -/
theorem merge_repeats_patch :
    let merged := empty.merge .append patchCache
    (∃ values, merged.catalog.get? "Def" = some values ∧ ¬ values.Nodup) ∧
      (merged.merge .append patchCache).catalog ≠ merged.catalog := by
  intro merged
  have htaken : merged.catalog.get? "Def" = some ["A", "A"] := by decide
  have hshort : (merged.merge .append patchCache).catalog.get? "Def" = some ["A"] := by
    decide
  refine ⟨⟨_, htaken, by decide⟩, fun hsame => ?_⟩
  rw [hsame, htaken] at hshort
  exact absurd hshort (by decide)

end Cache

end SchemaGraph
