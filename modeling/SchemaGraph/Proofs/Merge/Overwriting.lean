import SchemaGraph.Proofs.Merge.Reconciliation
import SchemaGraph.Proofs.Merge.Repetition

/-!
# Overwriting Definitions

Overwriting puts the incoming definitions, one after the other, into a list that the earlier ones
have changed.  What comes out needs no list in between: the first record of each tag gives way to
the last incoming record with that tag, and tags that the base lacks follow in the order in which
they come.

- `putDefinition_mapFirsts`: what one incoming definition does to such a list
- `mergeDefinitions_overwrite`: what all of them come to
- `Cache.merge_overwrite_last_wins`: overwriting against appending, its report, and overwriting
  again
-/

namespace SchemaGraph

/-! ## §1 The first record of each tag -/

/-- The records with `f` applied to the first one of each tag. -/
def mapFirsts (f : Definition → Definition) (ds : List Definition) : List Definition :=
  ds.zipIdx.map fun (p : Definition × Nat) =>
    if p.1.tagName ∉ (ds.take p.2).map (·.tagName) then f p.1 else p.1

section MapFirsts

variable {f g : Definition → Definition}

theorem mapFirsts_append_singleton (f : Definition → Definition) (ds : List Definition)
    (d : Definition) :
    mapFirsts f (ds ++ [d]) =
      mapFirsts f ds ++ [if d.tagName ∉ ds.map (·.tagName) then f d else d] := by
  have hinit : ds.zipIdx.map (fun (p : Definition × Nat) =>
        if p.1.tagName ∉ ((ds ++ [d]).take p.2).map (·.tagName) then f p.1 else p.1) =
      mapFirsts f ds :=
    List.map_congr_left fun p hp => by rw [take_append_of_mem_zipIdx hp]
  rw [mapFirsts, zipIdx_append_singleton, List.map_append, hinit, List.map_singleton,
    List.take_left]

theorem length_mapFirsts (f : Definition → Definition) (ds : List Definition) :
    (mapFirsts f ds).length = ds.length := by
  rw [mapFirsts, List.length_map, List.length_zipIdx]

theorem mapFirsts_id (ds : List Definition) : mapFirsts id ds = ds := by
  simp only [mapFirsts, id, ite_self]
  exact List.zipIdx_map_fst 0 ds

theorem mapFirsts_congr {ds : List Definition} (h : ∀ d ∈ ds, f d = g d) :
    mapFirsts f ds = mapFirsts g ds :=
  List.map_congr_left fun p hp => by rw [h p.1 (List.fst_mem_of_mem_zipIdx hp)]

/-- A change that keeps the tag of each record keeps the tags of the list. -/
theorem map_tagName_mapFirsts (hf : ∀ d, (f d).tagName = d.tagName) (ds : List Definition) :
    (mapFirsts f ds).map (·.tagName) = ds.map (·.tagName) := by
  induction ds using List.reverseRecOn with
  | nil => rfl
  | append_singleton ds d ih =>
    rw [mapFirsts_append_singleton, List.map_append, ih, List.map_append]
    split
    · simp only [List.map_singleton, hf]
    · rfl

theorem mapFirsts_mapFirsts (hf : ∀ d, (f d).tagName = d.tagName) (ds : List Definition) :
    mapFirsts g (mapFirsts f ds) = mapFirsts (g ∘ f) ds := by
  induction ds using List.reverseRecOn with
  | nil => rfl
  | append_singleton ds d ih =>
    rw [mapFirsts_append_singleton, mapFirsts_append_singleton, mapFirsts_append_singleton, ih,
      map_tagName_mapFirsts hf]
    -- Tags stay, so `d` is the first of its tag after the inner change if it is one before it.
    by_cases hd : d.tagName ∈ ds.map (·.tagName)
    · rw [if_neg (not_not.2 hd), if_neg (not_not.2 hd), if_neg (not_not.2 hd)]
    · rw [if_pos hd, hf, if_pos hd, if_pos hd]
      rfl

/-- Behind records with other tags, each record of a list without repeated tags is a first one. -/
theorem mapFirsts_append_of_new (ds : List Definition) {es : List Definition}
    (hnodup : (es.map (·.tagName)).Nodup)
    (hnew : ∀ e ∈ es, e.tagName ∉ ds.map (·.tagName)) :
    mapFirsts f (ds ++ es) = mapFirsts f ds ++ es.map f := by
  -- Records are added at the end: whether one is the first of its tag is told by those before it.
  induction es using List.reverseRecOn with
  | nil => simp
  | append_singleton es e ih =>
    rw [List.map_append, List.nodup_append] at hnodup
    obtain ⟨hnodup, -, hdisjoint⟩ := hnodup
    -- `e` is first of its tag: none of the records before it has that tag, old or new.
    have hfirst : e.tagName ∉ (ds ++ es).map (·.tagName) := by
      rw [List.map_append, List.mem_append]
      rintro (hmem | hmem)
      · exact hnew e (by simp) hmem
      · exact hdisjoint _ hmem _ (by simp) rfl
    rw [← List.append_assoc, mapFirsts_append_singleton, if_pos hfirst,
      ih hnodup fun e' he' => hnew e' (List.mem_append_left _ he'), List.map_append,
      List.map_singleton, List.append_assoc]

end MapFirsts

/-! ## §2 The last incoming record -/

/-- The last record with a tag. -/
def lastTagged? (ds : List Definition) (tag : String) : Option Definition :=
  ds.reverse.find? (fun d => d.tagName = tag)

/-- The last incoming record with the tag of `d`, or `d` itself if there is none. -/
def latest (incoming : List Definition) (d : Definition) : Definition :=
  (lastTagged? incoming d.tagName).getD d

theorem lastTagged?_append_singleton (ds : List Definition) (d : Definition) (tag : String) :
    lastTagged? (ds ++ [d]) tag = if d.tagName = tag then some d else lastTagged? ds tag := by
  rw [lastTagged?, List.reverse_append, List.reverse_singleton, List.singleton_append,
    List.find?_cons]
  by_cases htag : d.tagName = tag <;> simp [htag, lastTagged?]

theorem tagName_of_lastTagged? {ds : List Definition} {tag : String} {d : Definition}
    (h : lastTagged? ds tag = some d) : d.tagName = tag := by
  simpa using List.find?_some h

theorem lastTagged?_eq_none_iff {ds : List Definition} {tag : String} :
    lastTagged? ds tag = none ↔ tag ∉ ds.map (·.tagName) := by
  simp [lastTagged?, List.find?_eq_none]

theorem mem_tags_of_lastTagged? {ds : List Definition} {tag : String} {d : Definition}
    (h : lastTagged? ds tag = some d) : tag ∈ ds.map (·.tagName) :=
  Decidable.byContradiction fun hnone => by
    rw [lastTagged?_eq_none_iff.2 hnone] at h
    cases h

theorem exists_lastTagged? {ds : List Definition} {tag : String}
    (h : tag ∈ ds.map (·.tagName)) : ∃ d, lastTagged? ds tag = some d :=
  Option.ne_none_iff_exists'.1 fun hnone => lastTagged?_eq_none_iff.1 hnone h

/-- One more incoming record is the latest of its tag. -/
theorem latest_append_singleton (incoming : List Definition) (x d : Definition) :
    latest (incoming ++ [x]) d = if x.tagName = d.tagName then x else latest incoming d := by
  rw [latest, lastTagged?_append_singleton]
  split <;> rfl

@[simp] theorem tagName_latest (incoming : List Definition) (d : Definition) :
    (latest incoming d).tagName = d.tagName := by
  unfold latest
  cases h : lastTagged? incoming d.tagName with
  | none => rfl
  | some e => exact tagName_of_lastTagged? h

theorem latest_latest (incoming : List Definition) (d : Definition) :
    latest incoming (latest incoming d) = latest incoming d := by
  rw [latest, tagName_latest]
  unfold latest
  cases lastTagged? incoming d.tagName <;> rfl

/-! ## §3 Putting definitions in place -/

/-- The incoming records, in order, whose tag neither the base nor an earlier one has. -/
def freshDefinitions (base incoming : List Definition) : List Definition :=
  fresh (fun d => d.tagName ∈ base.map (·.tagName)) (fun e d => e.tagName = d.tagName) incoming

/-- The base with the first record of each tag replaced by the last incoming record with that
tag, and then, for each tag that the base lacks, in order of first appearance, the last incoming
record with that tag. -/
def overwritten (base incoming : List Definition) : List Definition :=
  mapFirsts (latest incoming) base ++ (freshDefinitions base incoming).map (latest incoming)

theorem freshDefinitions_eq_newcomers (base incoming : List Definition) :
    freshDefinitions base incoming =
      newcomers (·.tagName) (base.map (·.tagName)) incoming :=
  (newcomers_eq_fresh (fun _ => Iff.rfl) (fun _ _ => Iff.rfl) incoming).symm

/-- The tags of the base with the fresh records behind it are those of both sides. -/
theorem mem_tags_append_fresh {base incoming : List Definition} {tag : String} :
    tag ∈ (base ++ freshDefinitions base incoming).map (·.tagName) ↔
      tag ∈ base.map (·.tagName) ∨ tag ∈ incoming.map (·.tagName) := by
  rw [freshDefinitions_eq_newcomers, List.map_append]
  exact mem_keysWith

theorem ne_tagName_of_notMem {tag : String} {ds : List Definition}
    (h : tag ∉ ds.map (·.tagName)) {d : Definition} (hd : d ∈ ds) : tag ≠ d.tagName := by
  rintro rfl
  exact h (List.mem_map_of_mem hd)

theorem putDefinition_append_of_mem {d : Definition} {ds : List Definition}
    (h : d.tagName ∈ ds.map (·.tagName)) (es : List Definition) :
    putDefinition d (ds ++ es) = putDefinition d ds ++ es := by
  induction ds with
  | nil => simp at h
  | cons b bs ih =>
    rw [List.cons_append, putDefinition, putDefinition]
    by_cases hb : b.tagName = d.tagName
    · rw [if_pos hb, if_pos hb, List.cons_append]
    · have hbs : d.tagName ∈ bs.map (·.tagName) :=
        (List.mem_cons.1 h).resolve_left fun heq => hb heq.symm
      rw [if_neg hb, if_neg hb, ih hbs, List.cons_append]

theorem putDefinition_append_of_notMem {d : Definition} {ds : List Definition}
    (h : d.tagName ∉ ds.map (·.tagName)) (es : List Definition) :
    putDefinition d (ds ++ es) = ds ++ putDefinition d es := by
  induction ds with
  | nil => rfl
  | cons b bs ih =>
    obtain ⟨hb, hbs⟩ := not_or.1 (mt List.mem_cons.2 h)
    rw [List.cons_append, putDefinition, if_neg fun heq => hb heq.symm, ih hbs, List.cons_append]

theorem putDefinition_of_notMem {d : Definition} {ds : List Definition}
    (h : d.tagName ∉ ds.map (·.tagName)) : putDefinition d ds = ds ++ [d] := by
  have happend := putDefinition_append_of_notMem h []
  rwa [List.append_nil] at happend

/-- **One incoming definition**: it takes the place of the first record of its tag, whatever was
put there before. -/
theorem putDefinition_mapFirsts {f : Definition → Definition}
    (hf : ∀ d, (f d).tagName = d.tagName) {x : Definition} {ds : List Definition}
    (hx : x.tagName ∈ ds.map (·.tagName)) :
    putDefinition x (mapFirsts f ds) =
      mapFirsts (fun d => if x.tagName = d.tagName then x else f d) ds := by
  induction ds using List.reverseRecOn with
  | nil => simp at hx
  | append_singleton ds d ih =>
    rw [mapFirsts_append_singleton, mapFirsts_append_singleton]
    by_cases hds : x.tagName ∈ ds.map (·.tagName)
    · -- The place is before `d`; if `d` has the tag, it is not the first one.
      have hmem : x.tagName ∈ (mapFirsts f ds).map (·.tagName) := by
        rwa [map_tagName_mapFirsts hf]
      rw [putDefinition_append_of_mem hmem, ih hds]
      by_cases hd : x.tagName = d.tagName
      · rw [hd] at hds
        rw [if_neg (not_not.2 hds), if_neg (not_not.2 hds)]
      · simp only [if_neg hd]
    · -- Only `d` can have the tag, and it is the first one with it.
      have hnotMem : x.tagName ∉ (mapFirsts f ds).map (·.tagName) := by
        rwa [map_tagName_mapFirsts hf]
      have hd : x.tagName = d.tagName := by
        rw [List.map_append, List.mem_append] at hx
        simpa using hx.resolve_left hds
      have hothers : ∀ e ∈ ds, f e = if x.tagName = e.tagName then x else f e :=
        fun e he => (if_neg (ne_tagName_of_notMem hds he)).symm
      rw [putDefinition_append_of_notMem hnotMem, mapFirsts_congr hothers, ← hd, if_pos hds,
        if_pos hds, if_pos rfl, putDefinition, if_pos ((hf d).trans hd.symm)]

/-- A record whose tag is there adds nothing. -/
theorem freshDefinitions_append_of_mem {base xs : List Definition} {x : Definition}
    (hx : x.tagName ∈ (base ++ freshDefinitions base xs).map (·.tagName)) :
    freshDefinitions base (xs ++ [x]) = freshDefinitions base xs := by
  have hseen : ¬ (x.tagName ∉ base.map (·.tagName) ∧ ∀ y ∈ xs, y.tagName ≠ x.tagName) := by
    rintro ⟨hbase, hxs⟩
    obtain ⟨y, hy, htag⟩ := List.mem_map.1 ((mem_tags_append_fresh.1 hx).resolve_left hbase)
    exact hxs y hy htag
  rw [freshDefinitions, fresh_append_singleton, if_neg hseen, List.append_nil, freshDefinitions]

/-- A record with a new tag comes last. -/
theorem freshDefinitions_append_of_notMem {base xs : List Definition} {x : Definition}
    (hx : x.tagName ∉ (base ++ freshDefinitions base xs).map (·.tagName)) :
    freshDefinitions base (xs ++ [x]) = freshDefinitions base xs ++ [x] := by
  obtain ⟨hbase, hxs⟩ := not_or.1 (mt mem_tags_append_fresh.2 hx)
  have hnew : x.tagName ∉ base.map (·.tagName) ∧ ∀ y ∈ xs, y.tagName ≠ x.tagName :=
    ⟨hbase, fun y hy htag => hxs (List.mem_map.2 ⟨y, hy, htag⟩)⟩
  rw [freshDefinitions, fresh_append_singleton, if_pos hnew, freshDefinitions]

/-- **A run of incoming definitions** leaves the latest records, over the base with the fresh
records behind it. -/
theorem mergeDefinitions_eq_mapFirsts (base incoming : List Definition) :
    mergeDefinitions .overwrite base incoming =
      mapFirsts (latest incoming) (base ++ freshDefinitions base incoming) := by
  -- The last incoming definition is put into what the others have left.
  induction incoming using List.reverseRecOn with
  | nil =>
    show base = mapFirsts id (base ++ [])
    rw [List.append_nil, mapFirsts_id]
  | append_singleton xs x ih =>
    have hstep : mergeDefinitions .overwrite base (xs ++ [x]) =
        putDefinition x (mergeDefinitions .overwrite base xs) := by
      rw [mergeDefinitions, List.foldl_append]
      rfl
    have hlatest : ∀ d, latest (xs ++ [x]) d =
        if x.tagName = d.tagName then x else latest xs d := latest_append_singleton xs x
    rw [hstep, ih]
    by_cases hx : x.tagName ∈ (base ++ freshDefinitions base xs).map (·.tagName)
    · -- The record goes to the first one of its tag, as later than whatever was put there.
      rw [putDefinition_mapFirsts (tagName_latest xs) hx, freshDefinitions_append_of_mem hx,
        funext hlatest]
    · -- The record goes to the end and replaces nothing.
      have hothers : ∀ d ∈ base ++ freshDefinitions base xs,
          latest xs d = latest (xs ++ [x]) d :=
        fun d hd => ((hlatest d).trans (if_neg (ne_tagName_of_notMem hx hd))).symm
      have hnotMem : x.tagName ∉
          (mapFirsts (latest xs) (base ++ freshDefinitions base xs)).map (·.tagName) := by
        rwa [map_tagName_mapFirsts (tagName_latest xs)]
      rw [putDefinition_of_notMem hnotMem, freshDefinitions_append_of_notMem hx,
        ← List.append_assoc, mapFirsts_append_singleton, if_pos hx, ← mapFirsts_congr hothers,
        hlatest, if_pos rfl]

/-- **Overwriting in closed form**: the list is told by the first and the last records of each
tag, with no list in between. -/
theorem mergeDefinitions_overwrite (base incoming : List Definition) :
    mergeDefinitions .overwrite base incoming = overwritten base incoming := by
  rw [mergeDefinitions_eq_mapFirsts, overwritten]
  -- Each fresh record is the first of its tag, so it gives way to the last incoming one too.
  refine mapFirsts_append_of_new base ?_ fun e he => ?_
  · rw [freshDefinitions_eq_newcomers]
    exact nodup_map_newcomers _ _ _
  · rw [freshDefinitions_eq_newcomers] at he
    exact key_notMem_of_mem_newcomers he

theorem length_overwritten (base incoming : List Definition) :
    (overwritten base incoming).length =
      base.length + (freshDefinitions base incoming).length := by
  rw [overwritten, List.length_append, length_mapFirsts, List.length_map]

/-- Overwriting with the same records again replaces each of them by itself. -/
theorem mergeDefinitions_overwrite_again (base incoming : List Definition) :
    mergeDefinitions .overwrite (mergeDefinitions .overwrite base incoming) incoming =
      mergeDefinitions .overwrite base incoming := by
  -- Every incoming tag is there, so nothing is fresh.
  have hknown : ∀ d ∈ incoming, d.tagName ∈
      (mapFirsts (latest incoming) (base ++ freshDefinitions base incoming)).map (·.tagName) := by
    intro d hd
    rw [map_tagName_mapFirsts (tagName_latest incoming), mem_tags_append_fresh]
    exact .inr (List.mem_map_of_mem hd)
  have hlatest : latest incoming ∘ latest incoming = latest incoming :=
    funext (latest_latest incoming)
  rw [mergeDefinitions_eq_mapFirsts base, mergeDefinitions_eq_mapFirsts,
    freshDefinitions_eq_newcomers (mapFirsts _ _), newcomers_eq_nil hknown, List.append_nil,
    mapFirsts_mapFirsts (tagName_latest incoming), hlatest]

/-! ## §4 Overwriting a cache -/

theorem freshDefinitions_map_relabel (σ ρ : Handle → Handle) (base incoming : List Definition) :
    freshDefinitions base (incoming.map (Definition.relabel σ ρ)) =
      (freshDefinitions base incoming).map (Definition.relabel σ ρ) := by
  rw [freshDefinitions_eq_newcomers, freshDefinitions_eq_newcomers, newcomers_map]
  rfl

namespace Cache

/-- A plan looks at the arenas only, and those do not depend on the strategy. -/
theorem plan_again (base other : Cache) :
    (MergePlan.of (base.merge .overwrite other) other).schemaName =
        (MergePlan.of base other).schemaName ∧
      (MergePlan.of (base.merge .overwrite other) other).variantName =
        (MergePlan.of base other).variantName := by
  have hplan : MergePlan.of (base.merge .overwrite other) other =
      MergePlan.of (base.concat other) other := rfl
  rw [hplan]
  exact ⟨MergePlan.schemaName_again base other, MergePlan.variantName_again base other⟩

/-- **Overwriting against appending**: both leave the same arenas and tables and rename handles
alike.  The definitions are those of the base, with the first record of each tag replaced by the
last incoming one, and then one record for each new tag; every incoming record is counted, and
overwriting again changes no definition. -/
theorem merge_overwrite_last_wins (base other : Cache) :
    let appended := base.merge .append other
    let merged := base.merge .overwrite other
    let report := base.mergeReport .overwrite other
    (merged.schemas = appended.schemas ∧ merged.variants = appended.variants ∧
        merged.catalog = appended.catalog ∧ merged.castTable = appended.castTable) ∧
      (∃ schemaName variantName : Handle → Handle,
        RenamesInto merged other schemaName variantName ∧
        appended.definitions = base.definitions ++
          other.definitions.map (Definition.relabel schemaName variantName) ∧
        merged.definitions = overwritten base.definitions
          (other.definitions.map (Definition.relabel schemaName variantName))) ∧
      report.definitionsAdded = (freshDefinitions base.definitions other.definitions).length ∧
      report.definitionsAdded + report.definitionsReplaced = other.definitions.length ∧
      (merged.merge .overwrite other).definitions = merged.definitions := by
  intro appended merged report
  have hclosed : merged.definitions = overwritten base.definitions
      (other.definitions.map (Definition.relabel (MergePlan.of base other).schemaName
        (MergePlan.of base other).variantName)) := mergeDefinitions_overwrite _ _
  have hadded : report.definitionsAdded =
      (freshDefinitions base.definitions other.definitions).length := by
    show merged.definitions.length - base.definitions.length = _
    rw [hclosed, length_overwritten, freshDefinitions_map_relabel, List.length_map,
      Nat.add_sub_cancel_left]
  have hreplaced : report.definitionsReplaced =
      other.definitions.length - report.definitionsAdded := rfl
  -- No more records are added than come in, so subtracting is harmless.
  have hle : report.definitionsAdded ≤ other.definitions.length := by
    rw [hadded, freshDefinitions]
    exact length_fresh_le _
  refine ⟨⟨rfl, rfl, rfl, rfl⟩, ?_, hadded, ?_, ?_⟩
  · exact ⟨_, _, MergePlan.renamesInto .overwrite base other, rfl, hclosed⟩
  · rw [hreplaced]
    exact Nat.add_sub_cancel' hle
  · -- The second plan renames the incoming records as the first one did.
    show mergeDefinitions .overwrite merged.definitions (other.definitions.map _) = _
    rw [(plan_again base other).1, (plan_again base other).2]
    exact mergeDefinitions_overwrite_again _ _

end Cache

end SchemaGraph
