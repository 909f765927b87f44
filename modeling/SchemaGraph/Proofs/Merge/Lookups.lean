import Mathlib.Data.List.Nodup
import SchemaGraph.Proofs.Merge.Overwriting
import SchemaGraph.Proofs.Query

/-!
# Look-ups After Overwriting

A cache is asked for a tag in two ways: by itself it answers the first record of the tag, and a
path query reads the last one.  Overwriting puts the incoming record in the place of the first
record only.  So the two answers agree where the base has one record of the tag at most; where
appending left several, a query still reads the last of those.

- `find?_mapFirsts`, `lastTagged?_mapFirsts`: both look-ups in a list whose first records changed
- `Cache.overwrite_lookups_iff`: when both look-ups answer the incoming record
- `Cache.overwrite_unseen_lamps`: a module merged twice and then overwritten
-/

namespace SchemaGraph

/-! ## §1 Records of a tag -/

variable {f : Definition → Definition} {tag : String}

/-- The first record of a tag is the one that was changed. -/
theorem find?_mapFirsts (hf : ∀ d, (f d).tagName = d.tagName) (ds : List Definition) :
    (mapFirsts f ds).find? (fun d => d.tagName = tag) =
      (ds.find? fun d => d.tagName = tag).map f := by
  induction ds using List.reverseRecOn with
  | nil => rfl
  | append_singleton ds d ih =>
    rw [mapFirsts_append_singleton, List.find?_append, List.find?_append, ih]
    cases hfind : ds.find? (fun d => d.tagName = tag) with
    | some e => rfl -- What comes behind the first record of the tag is not looked at.
    | none =>
      by_cases hd : d.tagName = tag
      · -- No record before `d` has the tag, so `d` is changed.
        have hfirst : d.tagName ∉ ds.map (·.tagName) := by
          rw [hd, List.mem_map]
          rintro ⟨e, he, htag⟩
          exact List.find?_eq_none.1 hfind e he (decide_eq_true htag)
        rw [if_pos hfirst, List.find?_singleton, List.find?_singleton]
        simp only [hf, hd, decide_true, if_true, Option.map_none, Option.none_or, Option.map_some]
      · have hchanged : (if d.tagName ∉ ds.map (·.tagName) then f d else d).tagName ≠ tag := by
          split
          · rwa [hf]
          · exact hd
        rw [List.find?_singleton, List.find?_singleton, decide_eq_false hchanged,
          decide_eq_false hd]
        rfl

/-- The last record of a tag is the one that was changed only if it is the only one. -/
theorem lastTagged?_mapFirsts (hf : ∀ d, (f d).tagName = d.tagName) (ds : List Definition) :
    lastTagged? (mapFirsts f ds) tag =
      if (ds.map (·.tagName)).count tag ≤ 1 then (lastTagged? ds tag).map f
      else lastTagged? ds tag := by
  induction ds using List.reverseRecOn with
  | nil => rfl
  | append_singleton ds d ih =>
    -- A change keeps the tag, so the two lists are searched alike.
    have htag : (if d.tagName ∉ ds.map (·.tagName) then f d else d).tagName = d.tagName := by
      split
      · exact hf d
      · rfl
    rw [mapFirsts_append_singleton, lastTagged?_append_singleton, lastTagged?_append_singleton,
      ih, htag, List.map_append, List.count_append]
    by_cases hd : d.tagName = tag
    · -- `d` is the last record of the tag, and the only one if none before it has the tag.
      have honly : (ds.map (·.tagName)).count tag + ([d].map (·.tagName)).count tag ≤ 1 ↔
          d.tagName ∉ ds.map (·.tagName) := by
        rw [hd, ← List.count_eq_zero, List.map_singleton, hd, List.count_singleton_self]
        omega
      rw [if_pos hd, if_pos hd, if_congr honly rfl rfl, Option.map_some, apply_ite some]
    · have hother : ([d].map (·.tagName)).count tag = 0 :=
        List.count_eq_zero.2 fun hmem => hd (List.mem_singleton.1 hmem).symm
      rw [hother, if_neg hd, if_neg hd, Nat.add_zero]

theorem lastTagged?_append (ds es : List Definition) (tag : String) :
    lastTagged? (ds ++ es) tag = (lastTagged? es tag).or (lastTagged? ds tag) := by
  rw [lastTagged?, List.reverse_append, List.find?_append, lastTagged?, lastTagged?]

theorem lastTagged?_relabel (σ ρ : Handle → Handle) (ds : List Definition) (tag : String) :
    lastTagged? (ds.map (Definition.relabel σ ρ)) tag =
      (lastTagged? ds tag).map (Definition.relabel σ ρ) := by
  rw [lastTagged?, ← List.map_reverse, Cache.find?_tag_relabel, lastTagged?]

theorem latest_of_lastTagged? {incoming : List Definition} {d e : Definition}
    (h : lastTagged? incoming tag = some d) (he : e.tagName = tag) : latest incoming e = d := by
  rw [latest, he, h, Option.getD_some]

/-- Fresh records repeat no tag: not each other's, and not one of the base. -/
theorem count_append_fresh_le_one_iff (base incoming : List Definition) (tag : String) :
    ((base ++ freshDefinitions base incoming).map (·.tagName)).count tag ≤ 1 ↔
      (base.map (·.tagName)).count tag ≤ 1 := by
  rw [freshDefinitions_eq_newcomers, List.map_append, List.count_append]
  -- One of the two counts is zero, and that among the fresh records is one at most.
  have honce := List.nodup_iff_count_le_one.1
    (nodup_map_newcomers (·.tagName) (base.map (·.tagName)) incoming) tag
  by_cases hbase : tag ∈ base.map (·.tagName)
  · have hnone : ((newcomers (·.tagName) (base.map (·.tagName)) incoming).map
        (·.tagName)).count tag = 0 :=
      List.count_eq_zero.2 fun hmem => (mem_map_newcomers.1 hmem).2 hbase
    rw [hnone, Nat.add_zero]
  · rw [List.count_eq_zero.2 hbase, Nat.zero_add]
    exact iff_of_true honce (Nat.zero_le 1)

/-- A tag of the base that is repeated there is last found where it was. -/
theorem lastTagged?_append_fresh {base : List Definition} (hbase : tag ∈ base.map (·.tagName))
    (incoming : List Definition) :
    lastTagged? (base ++ freshDefinitions base incoming) tag = lastTagged? base tag := by
  have hnone : lastTagged? (freshDefinitions base incoming) tag = none := by
    rw [lastTagged?_eq_none_iff, freshDefinitions_eq_newcomers]
    exact fun hmem => (mem_map_newcomers.1 hmem).2 hbase
  rw [lastTagged?_append, hnone, Option.none_or]

/-! ## §2 After overwriting -/

section Overwrite

variable {base incoming : List Definition} {d : Definition}

/-- After overwriting, the first record of an incoming tag is the last incoming one. -/
theorem find?_overwrite (h : lastTagged? incoming tag = some d) :
    (mergeDefinitions .overwrite base incoming).find? (fun e => e.tagName = tag) = some d := by
  have hmem : tag ∈ (base ++ freshDefinitions base incoming).map (·.tagName) :=
    mem_tags_append_fresh.2 (.inr (mem_tags_of_lastTagged? h))
  rw [mergeDefinitions_eq_mapFirsts, find?_mapFirsts (tagName_latest incoming)]
  cases hfind : (base ++ freshDefinitions base incoming).find? (fun e => e.tagName = tag) with
  | none =>
    obtain ⟨e, he, htag⟩ := List.mem_map.1 hmem
    exact absurd (decide_eq_true htag) (List.find?_eq_none.1 hfind e he)
  | some e => exact congrArg some (latest_of_lastTagged? h (by simpa using List.find?_some hfind))

/-- After overwriting, the last record of an incoming tag is the last incoming one, unless the
base repeats the tag; then it is the last one of the base. -/
theorem lastTagged?_overwrite (h : lastTagged? incoming tag = some d) :
    lastTagged? (mergeDefinitions .overwrite base incoming) tag =
      if (base.map (·.tagName)).count tag ≤ 1 then some d else lastTagged? base tag := by
  -- The tag is met in the list over which the latest records are put.
  obtain ⟨e, he⟩ : ∃ e, lastTagged? (base ++ freshDefinitions base incoming) tag = some e :=
    exists_lastTagged? (mem_tags_append_fresh.2 (.inr (mem_tags_of_lastTagged? h)))
  rw [mergeDefinitions_eq_mapFirsts, lastTagged?_mapFirsts (tagName_latest incoming),
    if_congr (count_append_fresh_le_one_iff base incoming tag) rfl rfl]
  split
  -- The tag is met once, so its last record is the first one, which was replaced.
  · rw [he, Option.map_some, latest_of_lastTagged? h (tagName_of_lastTagged? he)]
  next hcount =>
    -- The base repeats the tag, and its last record stays, as nothing with this tag comes behind.
    have hbase : tag ∈ base.map (·.tagName) :=
      List.count_pos_iff.1 (Nat.lt_trans Nat.zero_lt_one (Nat.not_le.1 hcount))
    exact lastTagged?_append_fresh hbase incoming

end Overwrite

namespace Cache

/-- **Look-ups after overwriting**: the first record of an incoming tag is the last incoming one,
handles renamed.  The last record of the tag is that one as well exactly if the base does not
repeat the tag, or had that very record last; a base that repeats the tag keeps its last one. -/
theorem overwrite_lookups_iff (base : Cache) {other : Cache} {tag : String}
    (htag : tag ∈ other.definitions.map (·.tagName)) :
    let merged := base.merge .overwrite other
    let repeated := 1 < (base.definitions.map (·.tagName)).count tag
    ∃ (schemaName variantName : Handle → Handle) (d : Definition),
      RenamesInto merged other schemaName variantName ∧ other.lastDefinition? tag = some d ∧
        merged.definition? tag = some (d.relabel schemaName variantName) ∧
        (merged.lastDefinition? tag = some (d.relabel schemaName variantName) ↔
          ¬ repeated ∨ base.lastDefinition? tag = some (d.relabel schemaName variantName)) ∧
        (repeated → merged.lastDefinition? tag = base.lastDefinition? tag) := by
  intro merged repeated
  obtain ⟨d, hd⟩ := exists_lastTagged? htag
  have hincoming : lastTagged? (other.definitions.map (Definition.relabel
        (MergePlan.of base other).schemaName (MergePlan.of base other).variantName)) tag =
      some (d.relabel (MergePlan.of base other).schemaName
        (MergePlan.of base other).variantName) := by
    rw [lastTagged?_relabel, hd, Option.map_some]
  have hlast : merged.lastDefinition? tag =
      if (base.definitions.map (·.tagName)).count tag ≤ 1
      then some (d.relabel (MergePlan.of base other).schemaName
        (MergePlan.of base other).variantName)
      else base.lastDefinition? tag := lastTagged?_overwrite hincoming
  refine ⟨_, _, d, MergePlan.renamesInto .overwrite base other, hd, find?_overwrite hincoming,
    ?_, fun hrepeated => ?_⟩
  · rw [hlast]
    split
    next hcount => exact iff_of_true rfl (.inl (Nat.not_lt.2 hcount))
    next hcount => rw [or_iff_right (not_not.2 (Nat.not_le.1 hcount))]
  · rw [hlast, if_neg (Nat.not_le.2 hrepeated)]

theorem overwrite_lookups_gadgets :
    "ThingDef" ∈ gadgetCache.definitions.map (·.tagName) ∧
      ∃ d, (lampCache.merge .overwrite gadgetCache).definition? "ThingDef" = some d ∧
        (lampCache.merge .overwrite gadgetCache).lastDefinition? "ThingDef" = some d := by
  have htag : "ThingDef" ∈ gadgetCache.definitions.map (·.tagName) := by decide
  obtain ⟨σ, ρ, d, -, -, hfirst, hlast, -⟩ := overwrite_lookups_iff lampCache htag
  exact ⟨htag, d.relabel σ ρ, hfirst, hlast.2 (.inl (by decide))⟩

/-- A module that was merged twice and is then overwritten: the first of its records gives way,
and a query still finds the second one. -/
theorem overwrite_unseen_lamps :
    let base := empty.mergeAll [(.append, lampCache), (.append, lampCache)]
    let merged := base.merge .overwrite gadgetCache
    "ThingDef" ∈ gadgetCache.definitions.map (·.tagName) ∧
      ∀ d, gadgetCache.lastDefinition? "ThingDef" = some d → ∀ σ ρ : Handle → Handle,
        merged.lastDefinition? "ThingDef" ≠ some (d.relabel σ ρ) := by
  intro base merged
  refine ⟨by decide, fun d hd σ ρ hlast => ?_⟩
  -- The full name tells the two records apart, and renaming handles does not touch it.
  have hincoming : (gadgetCache.lastDefinition? "ThingDef").map (·.fullName) =
      some "Mod.ThingDef" := by decide
  have hfound : (merged.lastDefinition? "ThingDef").map (·.fullName) =
      some "Verse.ThingDef" := by decide
  rw [hd, Option.map_some] at hincoming
  rw [hlast, Option.map_some] at hfound
  exact absurd (hincoming.symm.trans hfound) (by decide)

end Cache

end SchemaGraph
