import SchemaGraph.Proofs.Extraction.Components
import SchemaGraph.Proofs.Extraction.Definitions

/-!
# What Ends a Pass

A type that cannot be read does not end a pass by itself.  Variants absorb the failure, and a type
without a record gets no definition.  Only a type that is due a definition passes the failure on,
and only if fields and base types lead from it to a type that cannot be read.

- `Pass.PassesOver`: no definition is that of an unreadable type
- `Pass.KeepsBroken`: unreadable component types have variants without fields
- `Pass.extract_endsAtDefinitions`: why an extraction fails, and what it makes of unreadable types
-/

namespace SchemaGraph

namespace Pass

variable {p : Pass} {t : TypeInfo} {v : Variant} {c : Cache}

/-! ## §1 Unreadable types -/

/-- No definition is that of a type that cannot be read. -/
def PassesOver (p : Pass) (ds : List Definition) : Prop :=
  ∀ t, p.module.lookup? t.fullName = some t → t.loadError ≠ none →
    t.fullName ∉ ds.map (·.fullName)

/-- The component types that cannot be read have variants, without fields. -/
def KeepsBroken (p : Pass) (vs : List Variant) : Prop :=
  ∀ t, p.IsComponent t → t.loadError ≠ none → ∃ v ∈ vs, v.fullName = t.name ∧ v.fields = []

/-- The members of an unreadable type are not known, so its variant has no fields. -/
theorem HasFields.eq_nil {fields : List Field} (hlookup : p.module.lookup? t.fullName = some t)
    (hload : t.loadError ≠ none) (hfields : p.HasFields t.fullName fields) : fields = [] := by
  obtain ⟨hreadable, hnames⟩ := hfields
  by_cases hroot : t.fullName = p.conventions.universalRoot
  · -- The universal root is left out of every base chain, its own included.
    have hchain : p.module.baseChain p.conventions.universalRoot t.fullName = [] := by
      simp [Module.baseChain, Module.chainFrom, hroot]
    have hnone : p.fieldNames t.fullName = [] := by
      simp [fieldNames, shownMembers, metMembers, hchain, newcomers]
    exact List.map_eq_nil_iff.1 (hnames.trans hnone)
  · exact absurd ⟨0, t, Module.isLevel_zero.2 ⟨hroot, hlookup⟩, hload⟩ hreadable

theorem StandsFor.fields_eq_nil (hv : p.StandsFor [] t v) (hload : t.loadError ≠ none) :
    v.fields = [] :=
  hv.fields.elim (fun hfields => hfields.eq_nil hv.declared hload) And.left

/-! ## §2 Extraction -/

/-- The definitions of an extracted cache are those of definition types. -/
theorem exists_eligible_of_mem_definitions (hextract : (p.extract start).1 = .ok c)
    {d : Definition} (hd : d ∈ c.definitions) : ∃ t, p.Eligible t ∧ d.fullName = t.fullName := by
  have hask := supports_anyState (p.marked.request p.marked.depthBound)
  obtain ⟨-, -, hcollected⟩ := hask.keeps_extract start start trivial trivial
  rcases hcollected c hextract with rfl | ⟨s, hs⟩
  · cases hd
  · obtain ⟨t, ht, fields, rfl, -⟩ := hs.definitions d hd
    exact ⟨t, mem_definitionTypes.1 ht, rfl⟩

theorem passesOver_of_extract (hextract : (p.extract start).1 = .ok c) :
    p.PassesOver c.definitions := by
  intro t hlookup hload hmem
  obtain ⟨d, hd, hname⟩ := List.mem_map.1 hmem
  obtain ⟨u, hu, hname'⟩ := exists_eligible_of_mem_definitions hextract hd
  -- Both types are what the name is looked up to.
  have hdeclared := hu.declared
  rw [← hname', hname, hlookup] at hdeclared
  obtain rfl := Option.some.inj hdeclared
  exact hload hu.readable

theorem keepsBroken_of_extract {base : TypeInfo}
    (hbase : p.module.lookup? p.conventions.definitionBase = some base)
    (hshort : (p.module.types.map (·.name)).Nodup) (hextract : (p.extract start).1 = .ok c) :
    p.KeepsBroken c.variants := by
  intro t ht hload
  obtain ⟨r, hvariants, htraced, -, hcovered⟩ := traced_extract hbase hextract
  have hmem : t.name ∈ r.variantNames := hcovered t.fullName
    (List.mem_append_left _ ((mem_componentTypes ht.declared).2 ht)) t ht.declared
  obtain ⟨v, hv, hname⟩ := List.mem_map.1 hmem
  obtain ⟨u, hu⟩ := htraced.variants hshort v hv
  obtain ⟨family, -, -, hlisted⟩ := ht.listed
  obtain ⟨t', hown, -, hlookup⟩ := Module.exists_own_of_mem_allSubtypes hlisted
  obtain rfl : t = t' := Option.some.inj (ht.declared.symm.trans hlookup)
  -- The variant stands for the component type, as no other own type has its short name.
  obtain rfl := hu.eq_of_name hshort hown hname
  exact ⟨v, hvariants ▸ hv, hname, hu.fields_eq_nil hload⟩

/-- **What ends a pass**: extraction fails only if fields and base types lead from a type that is
due a definition to one that cannot be read.  Otherwise it succeeds; then unreadable types have no
definitions, and the component types among them have variants without fields. -/
theorem extract_endsAtDefinitions (path : String) (manifest : ModuleManifest) (keys : KeyOrder)
    (conventions : Conventions) :
    let p := ofManifest path manifest conventions keys
    (∀ e, p.module.extract conventions = .error e →
        ∃ t, p.Eligible t ∧ p.ReachesUnreadable t.fullName)
      ∧ ((∀ t, p.Eligible t → ¬ p.ReachesUnreadable t.fullName) →
        ∃ c, p.module.extract conventions = .ok c)
      ∧ ∀ c, p.module.extract conventions = .ok c →
        p.PassesOver c.definitions
          ∧ ((p.module.lookup? conventions.definitionBase).isSome →
            (p.module.types.map (·.name)).Nodup → p.KeepsBroken c.variants) := by
  intro p
  have hreason : ∀ e, p.module.extract conventions = .error e →
      ∃ t, p.Eligible t ∧ p.ReachesUnreadable t.fullName := by
    intro e he
    obtain ⟨-, t, ht, hreaches⟩ := reachesUnreadable_of_extract (p := p) he
    exact ⟨t, mem_definitionTypes.1 ht, hreaches⟩
  refine ⟨hreason, fun hnone => ?_, fun c hextract => ?_⟩
  · cases hextract : p.module.extract conventions with
    | ok c => exact ⟨c, rfl⟩
    -- A failure would have a reason, and there is none.
    | error e =>
      obtain ⟨t, ht, hreaches⟩ := hreason e hextract
      exact absurd hreaches (hnone t ht)
  · refine ⟨passesOver_of_extract (p := p) hextract, fun hbase hshort => ?_⟩
    obtain ⟨base, hbase⟩ := Option.isSome_iff_exists.1 hbase
    exact keepsBroken_of_extract (p := p) hbase hshort hextract

/-- Types that cannot be read: a definition, a component, and an item of a list of properties. -/
def bellManifest : ModuleManifest where
  name := "Bells"
  types :=
    [TypeInfo.ofClass "Verse.Def",
      ((TypeInfo.ofClass "Mod.OldDef").withBase "Verse.Def").withLoadError "missing assembly",
      (TypeInfo.ofClass "Mod.Comp").asAbstract,
      ((TypeInfo.ofClass "Mod.CompRing").withBase "Mod.Comp").withLoadError "missing assembly",
      (TypeInfo.ofClass "Mod.Part").asAbstract,
      ((TypeInfo.ofClass "Mod.RustyPart").withBase "Mod.Part").withLoadError "missing assembly",
      (TypeInfo.ofClass "Mod.CompProperties_Bell").withMember
        { name := "parts", type := .list (.named "Mod.Part") }]

/-- A definition needs the schema of a type that cannot be read. -/
def crackedManifest : ModuleManifest where
  name := "Cracked"
  types :=
    [TypeInfo.ofClass "Verse.Def",
      ((TypeInfo.ofClass "Mod.BellDef").withBase "Verse.Def").withMember
        { name := "clapper", type := .named "Mod.Clapper" },
      (TypeInfo.ofClass "Mod.Clapper").withLoadError "missing assembly"]

/-- The bells are extracted, and what cannot be read stays without fields.  The cracked one is not:
its definition leads to the clapper. -/
theorem extract_bells :
    let p := ofManifest "bells.json" bellManifest {}
    (∃ c, p.module.extract {} = .ok c
      ∧ c.variants.map (fun v => (v.fullName, v.fields.map (·.name))) =
          [("CompRing", []), ("CompProperties_Bell", ["parts"]), ("RustyPart", [])]
      ∧ p.PassesOver c.definitions ∧ p.KeepsBroken c.variants)
    ∧ let p := ofManifest "cracked.json" crackedManifest {}
      p.module.extract {} = .error ⟨"Mod.Clapper", "missing assembly"⟩
        ∧ ∃ t, p.Eligible t ∧ p.ReachesUnreadable t.fullName := by
  refine ⟨?_, ?_⟩
  · obtain ⟨-, hsuccess, hends⟩ := extract_endsAtDefinitions "bells.json" bellManifest .given {}
    -- Nothing is due a definition.
    have hnone : (ofManifest "bells.json" bellManifest {}).definitionTypes = [] := by
      decide
    obtain ⟨c, hextract⟩ := hsuccess fun t ht => by
      rw [← mem_definitionTypes, hnone] at ht
      cases ht
    have hvariants : ((ofManifest "bells.json" bellManifest {}).module.extract {}).toOption.map
        (fun c => c.variants.map fun v => (v.fullName, v.fields.map (·.name))) =
          some [("CompRing", []), ("CompProperties_Bell", ["parts"]), ("RustyPart", [])] := by
      decide +kernel
    rw [hextract] at hvariants
    obtain ⟨hpasses, hkeeps⟩ := hends c hextract
    exact ⟨c, hextract, Option.some.inj hvariants, hpasses,
      hkeeps (by decide) (by decide)⟩
  · have hextract : (ofManifest "cracked.json" crackedManifest {}).module.extract {} =
        .error ⟨"Mod.Clapper", "missing assembly"⟩ := by
      decide
    exact ⟨hextract,
      (extract_endsAtDefinitions "cracked.json" crackedManifest .given {}).1 _ hextract⟩

/-- A component cannot be read, and no definition base is declared. -/
def orphanManifest : ModuleManifest where
  name := "Orphans"
  types :=
    [(TypeInfo.ofClass "Mod.Comp").asAbstract,
      ((TypeInfo.ofClass "Mod.CompOrphan").withBase "Mod.Comp").withLoadError "missing assembly"]

/-- Without a definition base nothing is extracted, so the component has no variant. -/
theorem extract_orphan_no_variant :
    let p := ofManifest "orphans.json" orphanManifest {}
    (∀ t, ¬ p.Eligible t) ∧ (p.module.types.map (·.name)).Nodup
      ∧ p.module.extract {} = .ok .empty
      ∧ (∃ t, p.IsComponent t ∧ t.loadError = some "missing assembly")
      ∧ ¬ p.KeepsBroken Cache.empty.variants := by
  intro p
  -- The component is there, but nothing below a definition base that is not declared.
  have hnone : p.definitionTypes = [] := by decide
  have hcomponent : p.IsComponent
      (((TypeInfo.ofClass "Mod.CompOrphan").withBase "Mod.Comp").withLoadError
        "missing assembly") :=
    ⟨by decide, by decide, by decide, (TypeInfo.ofClass "Mod.Comp").asAbstract,
      by decide, by decide, by decide⟩
  refine ⟨fun t ht => ?_, by decide, by decide, ⟨_, hcomponent, rfl⟩,
    fun hkeeps => ?_⟩
  · rw [← mem_definitionTypes, hnone] at ht
    cases ht
  · obtain ⟨v, hv, -⟩ := hkeeps _ hcomponent nofun
    cases hv

end Pass

end SchemaGraph
