import SchemaGraph.Proofs.Extraction.Tracing

/-!
# Variants of Components

Every component type and every properties type has one variant, whether a list refers to it or not;
all other variants are items of lists.  A pass may come to a type from several sides, and what it
makes of the type does not depend on the side from which it comes first: the variant is marked if
base types lead from it to a component family, and it has the fields of the type unless something
that cannot be read is in the way.

- `Pass.IsComponent`, `Pass.IsProperties`, `Pass.IsListItem`: where variants come from
- `Pass.StandsFor.isVariantOf`: what the trace of a registry says about a variant
- `Pass.extract_variants`: the variants of an extracted cache
-/

namespace SchemaGraph

namespace Pass

variable {p : Pass} {t : TypeInfo} {v : Variant} {fullName : String}

/-! ## §1 Where variants come from -/

/-- Base types lead from the type to a component family, own or imported. -/
def BelowFamily (p : Pass) (fullName : String) : Prop :=
  ∃ family ∈ p.module.types ++ p.module.imports, p.isComponentFamily family = true
    ∧ ∃ n, Module.climb p.module.ownBase? (n + 1) fullName = some family.fullName

/-- A list member of a declared type has items of this type. -/
def IsItemType (p : Pass) (itemType : String) : Prop :=
  ∃ u ∈ p.module.types ++ p.module.imports, ∃ m ∈ u.members, m.Kept
    ∧ m.type = .list (.named itemType)

/-- A concrete type that is listed below a component family. -/
structure IsComponent (p : Pass) (t : TypeInfo) : Prop where
  declared : p.module.lookup? t.fullName = some t
  concrete : t.isConcrete = true
  notBanned : p.isBanned t.fullName = false
  listed : ∃ family ∈ p.module.types ++ p.module.imports, p.isComponentFamily family = true
    ∧ t.fullName ∈ p.module.allSubtypes family.fullName

/-- An own type whose short name marks it as properties. -/
structure IsProperties (p : Pass) (t : TypeInfo) : Prop where
  own : t ∈ p.module.types
  noInterface : t.isInterface = false
  notBanned : p.isBanned t.fullName = false
  leads : Text.beginsWith p.conventions.propertiesLead t.name = true

/-- A concrete type that is listed below the item type of a list. -/
structure IsListItem (p : Pass) (t : TypeInfo) : Prop where
  declared : p.module.lookup? t.fullName = some t
  concrete : t.isConcrete = true
  notBanned : p.isBanned t.fullName = false
  listed : ∃ itemType, p.IsItemType itemType ∧ t.fullName ∈ p.module.allSubtypes itemType

theorem mem_familyMembers : fullName ∈ p.familyMembers ↔
    ∃ family ∈ p.module.types ++ p.module.imports, p.isComponentFamily family = true
      ∧ fullName ∈ p.module.allSubtypes family.fullName := by
  simp only [familyMembers, List.mem_flatMap, List.mem_filter, and_assoc]

theorem mem_familyMembers_iff_belowFamily (hdistinct : (p.module.types.map (·.fullName)).Nodup)
    (hbases : p.module.NoMutualBases) : fullName ∈ p.familyMembers ↔ p.BelowFamily fullName := by
  simp only [mem_familyMembers, BelowFamily, hbases.mem_allSubtypes_iff hdistinct]

theorem isVariantCandidate_iff (hlookup : p.module.lookup? t.fullName = some t) :
    p.isVariantCandidate t.fullName = true ↔
      t.isConcrete = true ∧ p.isBanned t.fullName = false := by
  simp [isVariantCandidate, hlookup]

theorem mem_componentTypes (hlookup : p.module.lookup? t.fullName = some t) :
    t.fullName ∈ p.componentTypes ↔ p.IsComponent t := by
  unfold componentTypes
  rw [List.mem_filter, isVariantCandidate_iff hlookup, mem_familyMembers]
  constructor
  · rintro ⟨hlisted, hconcrete, hbanned⟩
    exact ⟨hlookup, hconcrete, hbanned, hlisted⟩
  · rintro ⟨-, hconcrete, hbanned, hlisted⟩
    exact ⟨hlisted, hconcrete, hbanned⟩

theorem mem_propertiesTypes : t ∈ p.propertiesTypes ↔ p.IsProperties t := by
  simp only [propertiesTypes, isPropertiesType, List.mem_filter, Bool.and_eq_true,
    Bool.not_eq_true']
  constructor
  · rintro ⟨hown, ⟨hleads, hinterface⟩, hbanned⟩
    exact ⟨hown, hinterface, hbanned, hleads⟩
  · rintro ⟨hown, hinterface, hbanned, hleads⟩
    exact ⟨hown, ⟨hleads, hinterface⟩, hbanned⟩

theorem listItem?_eq_some {m : Member} {itemType : String} :
    listItem? m = some itemType ↔ m.type = .list (.named itemType) := by
  cases htype : m.type with
  | named typeName => simp [listItem?, htype]
  | list item => cases item <;> simp [listItem?, htype]

theorem isItemType_of_mem {itemType : String} (h : itemType ∈ p.itemTypes) :
    p.IsItemType itemType := by
  obtain ⟨u, hu, hitem⟩ := List.mem_flatMap.1 h
  obtain ⟨m, hm, hlist⟩ := List.mem_filterMap.1 hitem
  obtain ⟨hmember, hkept⟩ := List.mem_filter.1 hm
  exact ⟨u, hu, m, hmember, Member.isInstanceMember_iff.1 hkept, listItem?_eq_some.1 hlist⟩

/-- Whatever is offered comes from one of the three sides. -/
theorem origin_of_mem_offered (hdistinct : (p.module.types.map (·.fullName)).Nodup)
    (hown : t ∈ p.module.types) (hlookup : p.module.lookup? t.fullName = some t)
    (h : t.fullName ∈ p.offered) : p.IsComponent t ∨ p.IsProperties t ∨ p.IsListItem t := by
  unfold offered at h
  rcases List.mem_append.1 h with h | h
  · rcases List.mem_append.1 h with h | h
    · exact .inl ((mem_componentTypes hlookup).1 h)
    · obtain ⟨u, hu, hname⟩ := List.mem_map.1 h
      have hproperties := mem_propertiesTypes.1 hu
      -- No other own type has the full name.
      obtain rfl := List.inj_on_of_nodup_map hdistinct hproperties.own hown hname
      exact .inr (.inl hproperties)
  · obtain ⟨itemType, hitem, hcandidate⟩ := List.mem_flatMap.1 h
    obtain ⟨hlisted, hcandidate⟩ := List.mem_filter.1 hcandidate
    obtain ⟨hconcrete, hbanned⟩ := (isVariantCandidate_iff hlookup).1 hcandidate
    exact .inr (.inr ⟨hlookup, hconcrete, hbanned, itemType, isItemType_of_mem hitem, hlisted⟩)

/-! ## §2 What variants are -/

/-- The variant is that of the type: it has its short name, it is marked if it is below a component
family, and it has the fields of the type or, if an unreadable type is in the way, none. -/
structure IsVariantOf (p : Pass) (t : TypeInfo) (v : Variant) : Prop where
  own : t ∈ p.module.types
  name : v.fullName = t.name
  origin : p.IsComponent t ∨ p.IsProperties t ∨ p.IsListItem t
  special : v.isSpecialKind = true ↔ p.BelowFamily t.fullName
  fields : v.fields.map (·.name) = p.fieldNames t.fullName ∨
    v.fields = [] ∧ p.ReachesUnreadable t.fullName

/-- One variant for each component type and each properties type, and no variant but those of
types. -/
structure HasVariants (p : Pass) (vs : List Variant) : Prop where
  components : ∀ t, p.IsComponent t → (vs.map (·.fullName)).count t.name = 1
  properties : ∀ t, p.IsProperties t → (vs.map (·.fullName)).count t.name = 1
  variants : ∀ v ∈ vs, ∃ t, p.IsVariantOf t v

/-- **A variant whose trace is complete** is that of its type. -/
theorem StandsFor.isVariantOf (hdistinct : (p.module.types.map (·.fullName)).Nodup)
    (hbases : p.module.NoMutualBases) (hv : p.marked.StandsFor [] t v) : p.IsVariantOf t v where
  own := hv.own
  name := hv.name
  origin := origin_of_mem_offered hdistinct hv.own hv.declared hv.offered
  -- The mark is told by the family of the type, which is a matter of its bases.
  special := by
    rw [hv.special, ← mem_familyMembers_iff_belowFamily hdistinct hbases]
    exact List.contains_iff_mem
  fields := by
    -- Without fields it is complete as well, if an unreadable type is the reason.
    rcases hv.fields with ⟨-, hnames⟩ | ⟨hnone, hunderway | hreaches⟩
    · exact .inl hnames
    · cases hunderway
    · exact .inr ⟨hnone, hreaches⟩

/-- **Variants**: an extraction that succeeds makes one variant of each component type and of each
properties type, and all variants are right, in whatever order the pass comes to their types. -/
theorem extract_variants {path : String} {manifest : ModuleManifest} {keys : KeyOrder}
    {conventions : Conventions}
    {base : TypeInfo} {c : Cache} (hdistinct : (manifest.types.map (·.fullName)).Nodup)
    (hshort : ((Module.ofManifest path manifest keys).types.map (·.name)).Nodup)
    (hbases : (Module.ofManifest path manifest keys).NoMutualBases)
    (hbase : (Module.ofManifest path manifest keys).lookup? conventions.definitionBase = some base)
    (hextract : (Module.ofManifest path manifest keys).extract conventions = .ok c) :
    (ofManifest path manifest conventions keys).HasVariants c.variants := by
  let p := ofManifest path manifest conventions keys
  have hown : (p.module.types.map (·.fullName)).Nodup := by
    show ((Module.ofManifest path manifest keys).types.map (·.fullName)).Nodup
    rwa [Module.map_fullName_ofManifest]
  obtain ⟨r, hvariants, htraced, hnodup, hcovered⟩ := traced_extract (p := p) hbase hextract
  -- Whatever the loops have requested is among the variants, and no name is there twice.
  have honce : ∀ t, p.module.lookup? t.fullName = some t →
      t.fullName ∈ p.componentTypes ++ p.propertiesTypes.map (·.fullName) →
      (c.variants.map (·.fullName)).count t.name = 1 := by
    intro t hlookup hmem
    rw [hvariants]
    exact List.count_eq_one_of_mem hnodup (hcovered t.fullName hmem t hlookup)
  refine ⟨fun t ht => ?_, fun t ht => ?_, fun v hv => ?_⟩
  -- Component types and properties types have both been requested; each is one of the two loops.
  · exact honce t ht.declared (List.mem_append_left _ ((mem_componentTypes ht.declared).2 ht))
  · have hlookup : p.module.lookup? t.fullName = some t := Module.lookup?_of_mem_own hown ht.own
    exact honce t hlookup
      (List.mem_append_right _ (List.mem_map_of_mem (mem_propertiesTypes.2 ht)))
  -- The other way round, every variant of the cache has a type that it stands for.
  · rw [hvariants] at hv
    obtain ⟨t, ht⟩ := htraced.variants hshort v hv
    exact ⟨t, ht.isVariantOf hown hbases⟩

/-- The component family is imported.  One of its members is an item of a list, one is not, and the
properties of a lantern cannot be read. -/
def lanternManifest : ModuleManifest where
  name := "Lanterns"
  types :=
    [TypeInfo.ofClass "Verse.Def",
      ((TypeInfo.ofClass "Mod.LanternDef").withBase "Verse.Def").withMember
        { name := "shades", type := .list (.named "Mod.Shade") },
      (TypeInfo.ofClass "Mod.Shade").withMember { name := "color", type := .named "System.Int32" },
      ((TypeInfo.ofClass "Mod.PaperShade").withBase "Mod.Shade").withMember
        { name := "folds", type := .named "System.Int32" },
      ((TypeInfo.ofClass "Mod.CompGlow").withBase "Verse.ThingComp").withMember
        { name := "radius", type := .named "System.Single" },
      (TypeInfo.ofClass "Mod.CompProperties_Glow").withLoadError "missing assembly"]
  imports := [(TypeInfo.ofClass "Verse.ThingComp").asAbstract]

/-- The cache that is extracted from the lanterns. -/
def lanternCache : Cache :=
  ((Module.ofManifest "lanterns.json" lanternManifest).extract {}).toOption.getD .empty

theorem acyclic_lanterns : (Module.ofManifest "lanterns.json" lanternManifest).Acyclic :=
  Module.acyclic_of_order ["Verse.Def", "Mod.Shade", "Verse.ThingComp"] (by decide)

/-- Only the component is marked.  The item of the list inherits its color, and the properties stay
without fields. -/
theorem extract_lantern_variants :
    (lanternManifest.types.map (·.fullName)).Nodup
      ∧ ((Module.ofManifest "lanterns.json" lanternManifest).types.map (·.name)).Nodup
      ∧ (Module.ofManifest "lanterns.json" lanternManifest).NoMutualBases
      ∧ (Module.ofManifest "lanterns.json" lanternManifest).lookup? "Verse.Def" =
          some (TypeInfo.ofClass "Verse.Def")
      ∧ (Module.ofManifest "lanterns.json" lanternManifest).extract {} = .ok lanternCache
      ∧ lanternCache.variants.map (fun v => (v.fullName, v.isSpecialKind, v.fields.map (·.name))) =
          [("CompGlow", true, ["radius"]), ("CompProperties_Glow", false, []),
            ("PaperShade", false, ["folds", "color"])]
      ∧ (ofManifest "lanterns.json" lanternManifest {}).HasVariants lanternCache.variants := by
  have hdistinct : (lanternManifest.types.map (·.fullName)).Nodup := by decide
  have hshort : ((Module.ofManifest "lanterns.json" lanternManifest).types.map (·.name)).Nodup := by
    decide
  -- The definition base is declared, so the extraction does not stop at once.
  have hbase : (Module.ofManifest "lanterns.json" lanternManifest).lookup? "Verse.Def" =
      some (TypeInfo.ofClass "Verse.Def") := by decide
  have hextract :
      (Module.ofManifest "lanterns.json" lanternManifest).extract {} = .ok lanternCache := by
    decide +kernel
  have hbases := acyclic_lanterns.noMutualBases
  exact ⟨hdistinct, hshort, hbases, hbase, hextract, by decide +kernel,
    extract_variants hdistinct hshort hbases hbase hextract⟩

end Pass

end SchemaGraph
