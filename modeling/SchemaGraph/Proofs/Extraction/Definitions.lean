import SchemaGraph.Proofs.Extraction.Discovery
import SchemaGraph.Proofs.Extraction.Flattening
import SchemaGraph.Proofs.Module.SubtypeTable

/-!
# Definitions

Every type below the definition base that is a readable class gets one definition.  Whether a type
can be read is looked up in the notes that discovery has taken; discovery starts from these very
types, and no request takes a note back, so from then on the notes tell the same as the declarations
do.

- `Pass.allowsRequests_noting`: requests take notes and lose none
- `Pass.noted?_of_discover`: what the notes tell about the types below the definition base
- `Pass.Eligible`: the types that are due a definition
- `Pass.extract_definitions`: the definitions of an extracted cache
-/

namespace SchemaGraph

namespace Pass

variable {p : Pass} {t : TypeInfo} {d : Definition} {fullName : String}

/-! ## §1 Notes stay -/

/-- Notes are taken and not lost; nothing is asked of the registry. -/
def noting : Regime State where
  Inv := fun _ => True
  Le := fun s s' => s.2 ⊆ s'.2
  refl := fun s => List.Subset.refl s.2
  trans := List.Subset.trans

/-- **Notes stay**: the registry has nothing to do with them. -/
theorem allowsRequests_noting (p : Pass) : p.AllowsRequests noting where
  notes := fun _ _ _ hsubset _ => ⟨trivial, hsubset⟩
  reserveSchema := fun _ _ notes _ => ⟨trivial, List.Subset.refl notes⟩
  fillSchema := fun _ _ _ notes _ => ⟨trivial, List.Subset.refl notes⟩
  recordFailure := fun _ _ _ notes _ => ⟨trivial, List.Subset.refl notes⟩
  reserveVariant := fun _ _ _ _ _ notes _ => ⟨trivial, List.Subset.refl notes⟩
  fillVariant := fun _ _ _ notes _ => ⟨trivial, List.Subset.refl notes⟩

/-! ## §2 What discovery leaves -/

/-- Whatever is in the queue gets visited, unless it is banned. -/
theorem Visits.mem_order {visited queue order : List String} (h : p.Visits visited queue order)
    (hqueue : fullName ∈ queue) (hbanned : p.isBanned fullName = false) :
    fullName ∈ visited ∨ fullName ∈ order := by
  induction h with
  | done visited => cases hqueue
  | skip visited queue order name hskip hrest ih =>
    rcases List.mem_cons.1 hqueue with rfl | hqueue
    · -- It is not banned, so it has been visited before.
      rw [hbanned, Bool.false_or] at hskip
      exact .inl (List.contains_iff_mem.1 hskip)
    · exact ih hqueue
  | visit visited queue order name hvisit hrest ih =>
    rcases List.mem_cons.1 hqueue with rfl | hqueue
    · exact .inr List.mem_cons_self
    -- What is visited next is either what has been visited already, or comes later in the order.
    · rcases ih (List.mem_append_left _ hqueue) with hmem | hmem
      · rcases List.mem_cons.1 hmem with rfl | hmem
        · exact .inr List.mem_cons_self
        · exact .inl hmem
      · exact .inr (List.mem_cons_of_mem _ hmem)

/-- Discovery starts from the types below the definition base, so it reaches them. -/
theorem mem_reachable_of_mem_allSubtypes
    (h : fullName ∈ p.module.allSubtypes p.conventions.definitionBase)
    (hbanned : p.isBanned fullName = false) : fullName ∈ p.reachable := by
  have hseed : fullName ∈ p.seeds := List.mem_append_left _ h
  rcases p.visits_reachable.mem_order hseed hbanned with hvisited | hreached
  · cases hvisited
  · exact hreached

/-- **The notes of discovery**: from then on, the record of a type below the definition base is
known exactly if the type can be introspected. -/
theorem noted?_of_discover (h : fullName ∈ p.module.allSubtypes p.conventions.definitionBase)
    (hbanned : p.isBanned fullName = false) {s s' : State} (hs : (p.discover s).2.2 ⊆ s'.2) :
    p.noted? s' fullName = (p.module.introspect p.conventions fullName).toOption := by
  obtain ⟨notes, hrun, -, hreachable⟩ := p.discover_run s
  rw [hrun] at hs
  have hnoted : fullName ∈ s'.2 := hs (hreachable (mem_reachable_of_mem_allSubtypes h hbanned))
  rw [noted?, if_pos hnoted]

/-! ## §3 Definition types -/

/-- The type is due a definition: it is listed below the definition base, and it is a readable class
that is not banned, and concrete unless abstract types are definitions, too. -/
structure Eligible (p : Pass) (t : TypeInfo) : Prop where
  listed : t.fullName ∈ p.module.allSubtypes p.conventions.definitionBase
  declared : p.module.lookup? t.fullName = some t
  noInterface : t.isInterface = false
  notBanned : p.isBanned t.fullName = false
  readable : t.loadError = none
  concrete : t.isAbstract = false ∨ p.conventions.includesAbstract = true

theorem isReadable_iff (hlookup : p.module.lookup? t.fullName = some t) :
    p.isReadable t = true ↔ t.loadError = none := by
  simp only [isReadable, Module.introspect, hlookup]
  cases t.loadError <;> simp [Except.toBool]

theorem isDefinable_iff : p.isDefinable t = true ↔ t.isInterface = false
    ∧ p.isBanned t.fullName = false
    ∧ (t.isAbstract = false ∨ p.conventions.includesAbstract = true) := by
  simp only [isDefinable, Bool.and_eq_true, Bool.or_eq_true, Bool.not_eq_true', and_assoc]

theorem mem_definitionCandidates : t ∈ p.definitionCandidates ↔
    t.fullName ∈ p.module.allSubtypes p.conventions.definitionBase
      ∧ p.module.lookup? t.fullName = some t ∧ p.isDefinable t = true := by
  simp only [definitionCandidates, List.mem_filter, List.mem_filterMap]
  constructor
  · rintro ⟨⟨name, hlisted, hlookup⟩, hdefinable⟩
    obtain ⟨-, rfl⟩ := Module.lookup?_eq_some hlookup
    exact ⟨hlisted, hlookup, hdefinable⟩
  · rintro ⟨hlisted, hlookup, hdefinable⟩
    exact ⟨⟨t.fullName, hlisted, hlookup⟩, hdefinable⟩

theorem mem_definitionTypes : t ∈ p.definitionTypes ↔ p.Eligible t := by
  rw [definitionTypes, List.mem_filter, mem_definitionCandidates, isDefinable_iff]
  constructor
  · rintro ⟨⟨hlisted, hlookup, hinterface, hbanned, hconcrete⟩, hreadable⟩
    exact ⟨hlisted, hlookup, hinterface, hbanned, (isReadable_iff hlookup).1 hreadable, hconcrete⟩
  · rintro ⟨hlisted, hlookup, hinterface, hbanned, hload, hconcrete⟩
    exact ⟨⟨hlisted, hlookup, hinterface, hbanned, hconcrete⟩, (isReadable_iff hlookup).2 hload⟩

/-- A candidate that discovery has left without a note cannot be read. -/
theorem isReadable_eq_false_of_noted? (ht : t ∈ p.definitionCandidates) {s s' : State}
    (hs : (p.discover s).2.2 ⊆ s'.2) (hnone : (p.noted? s' t.fullName).isNone = true) :
    p.isReadable t = false := by
  obtain ⟨hlisted, -, hdefinable⟩ := mem_definitionCandidates.1 ht
  obtain ⟨-, hbanned, -⟩ := isDefinable_iff.1 hdefinable
  rw [noted?_of_discover hlisted hbanned hs] at hnone
  -- So there is no record of it to be had.
  unfold isReadable
  cases hrecord : p.module.introspect p.conventions t.fullName with
  | error e => rfl
  | ok record =>
    rw [hrecord] at hnone
    cases hnone

/-- If no subtype is listed twice, no definition type is. -/
theorem nodup_definitionTypes
    (hlisted : (p.module.allSubtypes p.conventions.definitionBase).Nodup) :
    (p.definitionTypes.map (·.fullName)).Nodup := by
  have hsublist : (((p.module.allSubtypes p.conventions.definitionBase).filterMap
      p.module.lookup?).map (·.fullName)).Sublist
        (p.module.allSubtypes p.conventions.definitionBase) := by
    induction p.module.allSubtypes p.conventions.definitionBase with
    | nil => exact .slnil
    | cons name names ih =>
      -- A name is looked up to a type of that name, or to none.
      rw [List.filterMap_cons]
      cases hlookup : p.module.lookup? name with
      | none => exact ih.cons name
      | some t =>
        obtain ⟨-, rfl⟩ := Module.lookup?_eq_some hlookup
        exact ih.cons_cons t.fullName
  -- Definition types are chosen twice among the listed ones, and choosing keeps their order.
  have htypes : p.definitionTypes.Sublist ((p.module.allSubtypes
      p.conventions.definitionBase).filterMap p.module.lookup?) :=
    List.filter_sublist.trans List.filter_sublist
  exact hlisted.sublist ((htypes.map _).trans hsublist)

/-! ## §4 Definitions -/

/-- The record of a type: its names, the last segment of its base, its tag and its fields. -/
structure Describes (p : Pass) (t : TypeInfo) (d : Definition) : Prop where
  fullName : d.fullName = t.fullName
  name : d.name = t.name
  isAbstract : d.isAbstract = t.isAbstract
  parentName : ∃ base, t.base = some base ∧ d.parentName = Text.afterLast '.' base
  tagName : d.tagName = if p.conventions.keepsNamespace then t.fullName else t.name
  fieldNames : d.fields.map (·.name) = p.fieldNames t.fullName

/-- One record for each type that is due one, in the order of their tags.  The types are listed once
each below the definition base, so records and entries of the index belong together in pairs. -/
structure DefinesAll (p : Pass) (ds : List Definition) : Prop where
  sorted : ds.Pairwise fun a b => a.tagName ≤ b.tagName
  listed : (p.module.allSubtypes p.conventions.definitionBase).Nodup
  once : (ds.map (·.fullName)).Nodup
  complete : ∀ t, p.Eligible t → t.fullName ∈ ds.map (·.fullName)
  records : ∀ d ∈ ds, ∃ t, p.Eligible t ∧ p.Describes t d

theorem Drafted.describes {A : Request → Handle → Prop} {base : String} (hd : p.Drafted A t d)
    (hbase : t.base = some base) : p.Describes t d := by
  obtain ⟨fields, rfl, hfields⟩ := hd
  exact ⟨rfl, rfl, rfl, ⟨base, hbase, by simp [definitionOf, hbase]⟩, rfl, hfields.names⟩

/-- If only unreadable types go without an answer, the answers that are left belong to the readable
types, in order. -/
theorem drafted_of_drafts {A : Request → Handle → Prop} {types : List TypeInfo}
    {answers : List (Option Definition)}
    (h : List.Forall₂ (p.Drafts A fun t => p.isReadable t = false) types answers) :
    List.Forall₂ (p.Drafted A) (types.filter p.isReadable) (answers.filterMap id) := by
  induction h with
  | nil => exact .nil
  | @cons t answer types answers hd _ ih =>
    cases answer with
    | none =>
      -- An unreadable type is filtered out on both sides.
      have hunreadable : p.isReadable t = false := hd
      simpa [hunreadable] using ih
    | some d =>
      obtain ⟨hreadable, hdrafted⟩ := hd
      simpa [hreadable] using And.intro hdrafted ih

/-- The records have the names of the types. -/
theorem map_fullName_of_drafted {A : Request → Handle → Prop} {types : List TypeInfo}
    {records : List Definition} (hdrafted : List.Forall₂ (p.Drafted A) types records) :
    records.map (·.fullName) = types.map (·.fullName) := by
  induction hdrafted with
  | nil => rfl
  | cons hd _ ih =>
    obtain ⟨fields, rfl, -⟩ := hd
    rw [List.map_cons, List.map_cons, ih]
    rfl

theorem pairwise_mergeSort_tagName (records : List Definition) :
    (records.mergeSort fun a b => a.tagName ≤ b.tagName).Pairwise
      fun a b => a.tagName ≤ b.tagName := by
  have htrans : ∀ a b c : Definition, decide (a.tagName ≤ b.tagName) = true →
      decide (b.tagName ≤ c.tagName) = true → decide (a.tagName ≤ c.tagName) = true :=
    fun a b c hab hbc =>
      decide_eq_true (String.le_trans (of_decide_eq_true hab) (of_decide_eq_true hbc))
  have htotal : ∀ a b : Definition,
      (decide (a.tagName ≤ b.tagName) || decide (b.tagName ≤ a.tagName)) = true :=
    fun a b => by simpa using String.le_total a.tagName b.tagName
  exact (List.pairwise_mergeSort htrans htotal records).imp of_decide_eq_true

theorem definesAll_of_drafted {A : Request → Handle → Prop} {records : List Definition}
    (hdistinct : (p.module.types.map (·.fullName)).Nodup) (hbases : p.module.NoMutualBases)
    (hdrafted : List.Forall₂ (p.Drafted A) p.definitionTypes records) :
    p.DefinesAll (records.mergeSort fun a b => a.tagName ≤ b.tagName) := by
  -- Sorting moves records about, but it neither loses nor doubles one.
  have hperm : ((records.mergeSort fun a b => a.tagName ≤ b.tagName).map (·.fullName)).Perm
      (p.definitionTypes.map (·.fullName)) :=
    map_fullName_of_drafted hdrafted ▸ (List.mergeSort_perm records _).map _
  have hlisted := hbases.nodup_allSubtypes hdistinct p.conventions.definitionBase
  refine ⟨pairwise_mergeSort_tagName records, hlisted, ?_, fun t ht => ?_, fun d hd => ?_⟩
  · exact hperm.nodup_iff.2 (nodup_definitionTypes hlisted)
  · exact hperm.mem_iff.2 (List.mem_map_of_mem (mem_definitionTypes.2 ht))
  · obtain ⟨t, ht, hdraft⟩ := exists_mem_of_forall₂ hdrafted (List.mem_mergeSort.1 hd)
    have heligible := mem_definitionTypes.1 ht
    -- Whatever is listed below the definition base has a base itself.
    obtain ⟨base, hbase⟩ := Module.exists_base?_of_mem_allSubtypes hdistinct heligible.listed
    rw [Module.base?, heligible.declared] at hbase
    exact ⟨t, heligible, hdraft.describes hbase⟩

/-- **Definitions**: an extraction that succeeds makes one record of each type that is due one, with
the fields that flattening finds.  It asks the notes of discovery which types can be read, and
these are right about every type in question, in whatever state comes after discovery. -/
theorem extract_definitions {path : String} {manifest : ModuleManifest} {keys : KeyOrder}
    {conventions : Conventions}
    {base : TypeInfo} {c : Cache} (hdistinct : (manifest.types.map (·.fullName)).Nodup)
    (hbases : (Module.ofManifest path manifest keys).NoMutualBases)
    (hbase : (Module.ofManifest path manifest keys).lookup? conventions.definitionBase = some base)
    (hextract : (Module.ofManifest path manifest keys).extract conventions = .ok c) :
    let p := ofManifest path manifest conventions keys
    p.DefinesAll c.definitions
      ∧ ∀ fullName ∈ p.module.allSubtypes conventions.definitionBase,
          p.isBanned fullName = false → ∀ s, (p.marked.discover start).2.2 ⊆ s.2 →
            p.noted? s fullName = (p.module.introspect conventions fullName).toOption := by
  intro p
  have hown : (p.module.types.map (·.fullName)).Nodup := by
    show ((Module.ofManifest path manifest keys).types.map (·.fullName)).Nodup
    rwa [Module.map_fullName_ofManifest]
  obtain ⟨_, s₁, s₂, s₃, s₄, hdiscover, hcomponents, hproperties, hdefinitions, -⟩ :=
    extract_eq_ok (p := p) hbase hextract
  refine ⟨?_, fun fullName hlisted hbanned s hs => ?_⟩
  -- Here is the loop that makes the definitions, with what it may rely on.
  · have hask := p.marked.allowsRequests_noting.supports p.marked.depthBound
    -- The variants are requested between discovery and the definitions, which loses no note.
    obtain ⟨-, hnotes₂, -⟩ :=
      (hask.keeps_requestComponents s₁).of_run trivial (noting.refl s₁) hcomponents
    obtain ⟨-, hnotes₃, -⟩ :=
      (hask.keeps_requestProperties s₂).of_run trivial (noting.refl s₂) hproperties
    have hnotes : ∀ s, noting.Le s₃ s → (p.marked.discover start).2.2 ⊆ s.2 := by
      intro s hs
      rw [hdiscover]
      exact noting.trans (noting.trans hnotes₂ hnotes₃) hs
    -- So a candidate is passed over only if it cannot be read.
    obtain ⟨-, -, answers, hdrafts, hds⟩ := (hask.keeps_answers p.marked s₃ _
      fun t ht s hs => isReadable_eq_false_of_noted? ht (hnotes s hs)).of_run trivial
        (noting.refl s₃) hdefinitions
    have hdrafted : List.Forall₂ (p.Drafted fun _ _ => True) p.definitionTypes
        (answers.filterMap id) :=
      (drafted_of_drafts hdrafts).imp fun t d hd => hd.of_agrees p.agrees_marked
    rw [hds]
    exact definesAll_of_drafted hown hbases hdrafted
  · exact noted?_of_discover (p := p.marked) hlisted hbanned hs

/-- Below the definition base there are an abstract type, a class of it, and one that cannot be
read. -/
def chairManifest : ModuleManifest where
  name := "Chairs"
  types :=
    [TypeInfo.ofClass "Verse.Def",
      ((TypeInfo.ofClass "Mod.ThingDef").withBase "Verse.Def").asAbstract.withMember
        { name := "label", type := .named "System.String" },
      ((TypeInfo.ofClass "Mod.ChairDef").withBase "Mod.ThingDef").withMember
        { name := "legs", type := .named "System.Int32" },
      ((TypeInfo.ofClass "Mod.TornDef").withBase "Mod.ThingDef").withLoadError "missing assembly"]

/-- The cache that is extracted from the chairs. -/
def chairCache : Cache :=
  ((Module.ofManifest "chairs.json" chairManifest).extract {}).toOption.getD .empty

theorem acyclic_chairs : (Module.ofManifest "chairs.json" chairManifest).Acyclic :=
  Module.acyclic_of_order (chairManifest.types.map (·.fullName)) (by decide)

/-- Only the chair is defined, with the label that it inherits. -/
theorem extract_chair_definitions :
    (chairManifest.types.map (·.fullName)).Nodup
      ∧ (Module.ofManifest "chairs.json" chairManifest).NoMutualBases
      ∧ (Module.ofManifest "chairs.json" chairManifest).lookup? "Verse.Def" =
          some (TypeInfo.ofClass "Verse.Def")
      ∧ (Module.ofManifest "chairs.json" chairManifest).extract {} = .ok chairCache
      ∧ chairCache.definitions.map (fun d => (d.tagName, d.parentName, d.fields.map (·.name))) =
          [("ChairDef", "ThingDef", ["legs", "label"])]
      ∧ (ofManifest "chairs.json" chairManifest {}).DefinesAll chairCache.definitions := by
  have hdistinct : (chairManifest.types.map (·.fullName)).Nodup := by decide
  have hbases := acyclic_chairs.noMutualBases
  have hbase : (Module.ofManifest "chairs.json" chairManifest).lookup? "Verse.Def" =
      some (TypeInfo.ofClass "Verse.Def") := by decide
  -- The type that cannot be read is due no definition, so it does no harm.
  have hextract : (Module.ofManifest "chairs.json" chairManifest).extract {} = .ok chairCache := by
    decide +kernel
  exact ⟨hdistinct, hbases, hbase, hextract, by decide +kernel,
    (extract_definitions hdistinct hbases hbase hextract).1⟩

end Pass

end SchemaGraph
