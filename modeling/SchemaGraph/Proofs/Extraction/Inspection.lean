import SchemaGraph.Proofs.Extraction.Completion
import SchemaGraph.Proofs.Outline

/-!
# Live and Cached Outlines

A type can be outlined from the module, in a pass that describes just this type, or from the cache
of a pass over the whole module.  The two come across the schemas in different orders and number
them differently.  Both spell out the same members, though, and a handle of either stands for a
declared name; handles with one name are two numbers of one schema.

- `Pass.Made.alike`: two fields of one member differ in handles only
- `Pass.bisimulation`: the two graphs are one graph under two numberings
- `Pass.outlines_agree`: the outlines are the same
-/

namespace SchemaGraph

/-- Two lists that go along with a third go along with each other. -/
theorem forall₂_of_common {α β γ : Type} {P : α → β → Prop} {Q : α → γ → Prop} {xs : List α}
    {ys : List β} {zs : List γ} (hP : List.Forall₂ P xs ys) (hQ : List.Forall₂ Q xs zs) :
    List.Forall₂ (fun y z => ∃ x, P x y ∧ Q x z) ys zs := by
  induction hP generalizing zs with
  | nil =>
    cases hQ
    exact .nil
  | cons hxy _ ih =>
    cases hQ with
    | cons hxz hrest => exact .cons ⟨_, hxy, hxz⟩ (ih hrest)

namespace Pass

variable {p : Pass}

/-! ## §1 Two fields of one member -/

/-- The fields have the same name, declared type, kind and values, and nothing attached below; the
handles of both answer the same requests. -/
structure Alike (p : Pass) (A A' : Request → Handle → Prop) (f g : Field) : Prop where
  name : f.name = g.name
  declaredType : f.declaredType = g.declaredType
  kind : f.kind = g.kind
  enumValues : f.enumValues = g.enumValues
  leaf : f.children = none ∧ g.children = none
  schema : (f.schemaId = noHandle ∧ g.schemaId = noHandle) ∨
    ∃ fullName, A (.schema fullName) f.schemaId ∧ A' (.schema fullName) g.schemaId
  variants : ∃ candidates, List.Forall₂ (fun t => A (.variant t)) candidates (f.variantIds.getD [])
    ∧ List.Forall₂ (fun t => A' (.variant t)) candidates (g.variantIds.getD [])

section Alike

variable {A A' : Request → Handle → Prop} {m : Member} {f g : Field} {itemType : String}
  {h h' : Handle}

/-- The items of a list have the same schema on both sides, or none. -/
theorem IsItemSchema.alike (hh : p.IsItemSchema A itemType h)
    (hh' : p.IsItemSchema A' itemType h') :
    (h = noHandle ∧ h' = noHandle) ∨
      ∃ fullName, A (.schema fullName) h ∧ A' (.schema fullName) h' := by
  unfold IsItemSchema at hh hh'
  -- Whether the item type is a scalar is the same question on both sides.
  split at hh
  next hscalar =>
    rw [if_pos hscalar] at hh'
    exact .inl ⟨hh, hh'⟩
  next hscalar =>
    rw [if_neg hscalar] at hh'
    exact .inr ⟨itemType, hh, hh'⟩

/-- **Two fields of one member**: the declarations leave no choice but the numbers of handles. -/
theorem Made.alike (hf : p.Made A m f) (hg : p.Made A' m g) : p.Alike A A' f g := by
  -- The type of the member and what the module says about it select the same case on both sides.
  cases hf with
  | deepList item htype =>
    cases hg with
    | deepList item' htype' =>
      exact ⟨rfl, rfl, rfl, rfl, ⟨rfl, rfl⟩, .inl ⟨rfl, rfl⟩, [], .nil, .nil⟩
    | _ => simp_all
  | list itemType h htype hpoly hh =>
    cases hg with
    | list itemType' h' htype' hpoly' hh' =>
      obtain rfl : itemType = itemType' := by simpa [htype] using htype'
      exact ⟨rfl, rfl, rfl, rfl, ⟨rfl, rfl⟩, hh.alike hh', [], .nil, .nil⟩
    | _ => simp_all
  | polymorphicList itemType h ids htype hpoly hh hids =>
    cases hg with
    | polymorphicList itemType' h' ids' htype' hpoly' hh' hids' =>
      obtain rfl : itemType = itemType' := by simpa [htype] using htype'
      exact ⟨rfl, rfl, rfl, rfl, ⟨rfl, rfl⟩, hh.alike hh', _, hids, hids'⟩
    | _ => simp_all
  | scalar typeName htype hscalar =>
    cases hg with
    | scalar typeName' htype' hscalar' =>
      obtain rfl : typeName = typeName' := by simpa [htype] using htype'
      exact ⟨rfl, rfl, rfl, rfl, ⟨rfl, rfl⟩, .inl ⟨rfl, rfl⟩, [], .nil, .nil⟩
    | _ => simp_all
  | enumerated typeName t htype hscalar hlookup henum =>
    cases hg with
    | enumerated typeName' t' htype' hscalar' hlookup' henum' =>
      obtain rfl : typeName = typeName' := by simpa [htype] using htype'
      obtain rfl : t = t' := by simpa [hlookup] using hlookup'
      exact ⟨rfl, rfl, rfl, rfl, ⟨rfl, rfl⟩, .inl ⟨rfl, rfl⟩, [], .nil, .nil⟩
    | _ => simp_all [isNestable]
  | nested typeName h htype hscalar hnestable hh =>
    cases hg with
    | nested typeName' h' htype' hscalar' hnestable' hh' =>
      obtain rfl : typeName = typeName' := by simpa [htype] using htype'
      exact ⟨rfl, rfl, rfl, rfl, ⟨rfl, rfl⟩, .inr ⟨typeName, hh, hh'⟩, [], .nil, .nil⟩
    | _ => simp_all [isNestable]
  | external typeName htype hscalar hlookup hbanned =>
    cases hg with
    | external typeName' htype' hscalar' hlookup' hbanned' =>
      obtain rfl : typeName = typeName' := by simpa [htype] using htype'
      exact ⟨rfl, rfl, rfl, rfl, ⟨rfl, rfl⟩, .inl ⟨rfl, rfl⟩, [], .nil, .nil⟩
    | _ => simp_all [isNestable]

end Alike

/-! ## §2 Two numberings -/

section Numberings

/-- What the handles of a registry answer. -/
abbrev PointsAt (p : Pass) (r : Registry) : Request → Handle → Prop :=
  p.Points r.schemaNames r.variantNames

/-- Two numbers of one schema, or no schema on either side. -/
def SameSchema (r r' : Registry) (h k : Handle) : Prop :=
  (h = noHandle ∧ k = noHandle) ∨ ∃ (i j : Nat) (fullName : String), h = i ∧ k = j
    ∧ r.schemaNames[i]? = some fullName ∧ r'.schemaNames[j]? = some fullName

/-- Two fields of one member. -/
def SameMember (p : Pass) (r r' : Registry) (f g : Field) : Prop :=
  ∃ m, p.Made (p.PointsAt r) m f ∧ p.Made (p.PointsAt r') m g

variable {r r' : Registry}

theorem eq_place_of_nodup {names : List String} (hnodup : names.Nodup) {i j : Nat} {name : String}
    (hi : names[i]? = some name) (hj : names[j]? = some name) : i = j :=
  (List.getElem?_inj (List.getElem?_eq_some_iff.1 hi).1 hnodup).1 (hi.trans hj.symm)

/-- No name has two places, so the numbers of the two sides are matched one to one. -/
theorem SameSchema.unique (hr : r.schemaNames.Nodup) (hr' : r'.schemaNames.Nodup)
    {h h' k k' : Handle} (hhk : SameSchema r r' h k) (hhk' : SameSchema r r' h' k') :
    h = h' ↔ k = k' := by
  rcases hhk with ⟨rfl, rfl⟩ | ⟨i, j, name, rfl, rfl, hi, hj⟩
  · rcases hhk' with ⟨rfl, rfl⟩ | ⟨i, j, name, rfl, rfl, -, -⟩
    · exact iff_of_true rfl rfl
    · -- A place is not the missing handle.
      have hne : ∀ n : Nat, noHandle ≠ (n : Int) := fun n h => by simp [noHandle] at h
      exact iff_of_false (hne i) (hne j)
  · rcases hhk' with ⟨rfl, rfl⟩ | ⟨i', j', name', rfl, rfl, hi', hj'⟩
    -- A place on the left and none on the right: no two such handles are equal on either side.
    · have hne : ∀ n : Nat, (n : Int) ≠ noHandle := fun n h => by simp [noHandle] at h
      exact iff_of_false (hne i) (hne j)
    · rw [Int.ofNat_inj, Int.ofNat_inj]
      constructor
      -- Equal handles have equal names, and a name has one place only.
      · rintro rfl
        obtain rfl : name = name' := Option.some.inj (hi.symm.trans hi')
        exact eq_place_of_nodup hr' hj hj'
      · rintro rfl
        obtain rfl : name = name' := Option.some.inj (hj.symm.trans hj')
        exact eq_place_of_nodup hr hi hi'

theorem sameSchema_of_points {fullName : String} {h k : Handle}
    (hh : p.PointsAt r (.schema fullName) h) (hk : p.PointsAt r' (.schema fullName) k) :
    SameSchema r r' h k := by
  cases hneeds : p.needsSchema fullName with
  | false =>
    exact .inl ⟨(points_schema_of_not_needs hneeds).1 hh, (points_schema_of_not_needs hneeds).1 hk⟩
  | true =>
    obtain ⟨i, rfl, hi⟩ := (points_schema_of_needs hneeds).1 hh
    obtain ⟨j, rfl, hj⟩ := (points_schema_of_needs hneeds).1 hk
    exact .inr ⟨i, j, fullName, rfl, rfl, hi, hj⟩

/-- Variants are named after the types they were requested for. -/
theorem names_of_points {candidates : List String} {ids : List Handle}
    (hids : List.Forall₂ (fun t => p.PointsAt r (.variant t)) candidates ids) :
    (ids.filterMap (entryAt? r.variants)).map (·.fullName) =
      candidates.filterMap fun t => (p.module.lookup? t).map (·.name) := by
  induction hids with
  | nil => rfl
  | @cons t h candidates ids hh _ ih =>
    cases hlookup : p.module.lookup? t with
    | none =>
      -- An undeclared candidate has no variant, so it adds no name to either list.
      obtain rfl := (points_variant_of_none hlookup).1 hh
      have hmissing : entryAt? r.variants noHandle = none := entryAt?_of_neg _ (by decide)
      simp [hmissing, hlookup, ih]
    | some info =>
      obtain ⟨i, rfl, hi⟩ := (points_variant hlookup).1 hh
      obtain ⟨v, hv, hname⟩ : ∃ v, r.variants[i]? = some v ∧ v.fullName = info.name := by
        simpa [Registry.variantNames] using hi
      simp [entryAt?_natCast, hv, hlookup, hname, ih]

/-- The schema at a place spells out the type that the place is named after. -/
theorem Finished.spelled (hr : p.Finished [] r) {i : Nat} {fullName : String}
    (hi : r.schemaNames[i]? = some fullName) :
    ∃ s, r.schemas[i]? = some s ∧ p.Spelled (p.PointsAt r) fullName s.fields := by
  obtain ⟨s, hs, rfl⟩ : ∃ s, r.schemas[i]? = some s ∧ s.fullName = fullName := by
    simpa [Registry.schemaNames] using hi
  exact ⟨s, hs, (hr s (List.mem_of_getElem? hs)).resolve_left List.not_mem_nil⟩

theorem forall₂_of_spelled {fullName : String} {fields fields' : List Field}
    (h : p.Spelled (p.PointsAt r) fullName fields)
    (h' : p.Spelled (p.PointsAt r') fullName fields') :
    List.Forall₂ (p.SameMember r r') fields fields' := by
  obtain ⟨members, hmembers, hmade⟩ := h
  obtain ⟨members', hmembers', hmade'⟩ := h'
  obtain rfl : members = members' := Option.some.inj (hmembers.symm.trans hmembers')
  exact forall₂_of_common hmade hmade'

theorem below?_of_leaf {arenas : Arenas} {f : Field} (h : f.children = none) :
    arenas.below? f = (entryAt? arenas.schemas f.schemaId).map (·.fields) := by
  simp [Arenas.below?, Field.inlineChildren?, h]

/-- Below matched handles there are the same members, or nothing. -/
theorem SameSchema.below (hr : p.Finished [] r) (hr' : p.Finished [] r') {h k : Handle}
    (hhk : SameSchema r r' h k) :
    Option.Rel (List.Forall₂ (p.SameMember r r')) ((entryAt? r.schemas h).map (·.fields))
      ((entryAt? r'.schemas k).map (·.fields)) := by
  rcases hhk with ⟨rfl, rfl⟩ | ⟨i, j, fullName, rfl, rfl, hi, hj⟩
  · rw [entryAt?_of_neg _ (by decide), entryAt?_of_neg _ (by decide)]
    exact .none
  · obtain ⟨s, hs, hspelled⟩ := hr.spelled hi
    obtain ⟨s', hs', hspelled'⟩ := hr'.spelled hj
    rw [entryAt?_natCast, entryAt?_natCast, hs, hs']
    exact .some (forall₂_of_spelled hspelled hspelled')

/-- **One graph under two numberings**: the registries of two passes over a module that both left
nothing unfinished. -/
theorem bisimulation (hr : p.Faithful r) (hr' : p.Faithful r') (hfinished : p.Finished [] r)
    (hfinished' : p.Finished [] r') :
    Arenas.Bisimulation ⟨r.schemas, r.variants⟩ ⟨r'.schemas, r'.variants⟩ (SameSchema r r')
      (p.SameMember r r') := by
  have halike : ∀ {f g}, p.SameMember r r' f g → p.Alike (p.PointsAt r) (p.PointsAt r') f g := by
    rintro f g ⟨m, hf, hg⟩
    exact hf.alike hg
  -- Handles of alike fields are both missing, or they are places of the same name.
  have hhandles : ∀ {f g}, p.SameMember r r' f g → SameSchema r r' f.schemaId g.schemaId := by
    intro f g hfg
    rcases (halike hfg).schema with hnone | ⟨fullName, hf, hg⟩
    · exact .inl hnone
    · exact sameSchema_of_points hf hg
  exact {
    unique := SameSchema.unique hr.schemaNames hr'.schemaNames
    handles := hhandles
    name := fun hfg => (halike hfg).name
    declaredType := fun hfg => (halike hfg).declaredType
    kind := fun hfg => (halike hfg).kind
    enumValues := fun hfg => (halike hfg).enumValues
    variantNames := fun hfg => by
      obtain ⟨candidates, hf, hg⟩ := (halike hfg).variants
      exact (names_of_points hf).trans (names_of_points hg).symm
    below := fun hfg => by
      rw [below?_of_leaf (halike hfg).leaf.1, below?_of_leaf (halike hfg).leaf.2]
      exact (hhandles hfg).below hfinished hfinished' }

end Numberings

/-! ## §3 Outlines -/

/-- What describing a type gives is what its outline shows. -/
theorem outline?_eq {typeName : String} {fields : List Field} {s : State}
    (h : p.describe typeName start = (.ok (some fields), s)) (depth : Nat) :
    p.outline? typeName depth =
      some (renderOutline ⟨s.1.schemas, s.1.variants⟩ typeName fields depth) := by
  unfold outline?
  rw [h]
  rfl

/-- The types of definitions are declared. -/
theorem lookup?_of_mem_definitionTypes {t : TypeInfo} (ht : t ∈ p.definitionTypes) :
    p.module.lookup? t.fullName = some t := by
  obtain ⟨name, -, hlookup⟩ := List.mem_filterMap.1 (List.mem_filter.1 (List.mem_filter.1 ht).1).1
  rwa [(Module.lookup?_eq_some hlookup).2]

/-- **Live and cached outlines agree**: from a manifest without load errors a cache is extracted,
and a definition that is found by its own full name has the same outline in the cache as in the
module, described in a pass of its own.  Base types may form cycles, and so may schemas. -/
theorem outlines_agree (path : String) {manifest : ModuleManifest} (keys : KeyOrder)
    (hloads : ∀ t ∈ manifest.types ++ manifest.imports, t.loadError = none)
    (conventions : Conventions) :
    ∃ c, (Module.ofManifest path manifest keys).extract conventions = .ok c ∧
      ∀ d ∈ c.definitions,
        c.definitions.find? (fun e => e.fullName = d.fullName ∨ e.tagName = d.fullName) = some d →
          ∀ depth, ∃ text,
            (ofManifest path manifest conventions keys).outline? d.fullName depth = some text ∧
              c.outline? d.fullName depth = some text := by
  have hmodule : (ofManifest path manifest conventions keys).module.Loads :=
    Module.loads_ofManifest hloads
  obtain ⟨c, hc, hcollected⟩ := extract_start hmodule
  refine ⟨c, hc, fun d hd hfirst depth => ?_⟩
  rcases hcollected with rfl | ⟨s', hs'⟩
  · cases hd
  · -- The definition spells out its type in the registry that the cache was made of.
    -- Described alone, the type leaves a registry of its own, which numbers the same schemas.
    obtain ⟨t, ht, fields', rfl, hspelled'⟩ := hs'.definitions d hd
    obtain ⟨⟨hfaithful', -⟩, -, hfinished', -⟩ := hs'.inv
    obtain ⟨fields, s, hdescribe, hspelled, hfaithful, hfinished⟩ :=
      describe_start hmodule (lookup?_of_mem_definitionTypes ht)
    have hsame := (bisimulation hfaithful hfaithful' hfinished hfinished').renderOutline_eq
      (forall₂_of_spelled hspelled hspelled') t.fullName depth
    refine ⟨_, outline?_eq hdescribe depth, ?_⟩
    unfold Cache.outline? Cache.describe? Cache.arenas
    rw [hfirst, hs'.schemas, hs'.variants]
    exact congrArg some hsame.symm

/-- Nodes refer to nodes, and both a node and the properties of a component have a size. -/
def nodeManifest : ModuleManifest where
  name := "Nodes"
  types :=
    [TypeInfo.ofClass "Verse.Def",
      (TypeInfo.ofClass "Mod.CompProperties_Area").withMember
        { name := "size", type := .named "Mod.Size" },
      ((TypeInfo.ofClass "Mod.NodeDef").withBase "Verse.Def").withMember
        { name := "root", type := .named "Mod.Node" },
      ((TypeInfo.ofClass "Mod.Node").withMember
        { name := "next", type := .named "Mod.Node" }).withMember
        { name := "size", type := .named "Mod.Size" },
      (TypeInfo.ofClass "Mod.Size").withMember { name := "x", type := .named "System.Single" }]

/-- The cache that is extracted from the nodes. -/
def nodeCache : Cache :=
  ((Module.ofManifest "nodes.json" nodeManifest).extract {}).toOption.getD .empty

/-- The schema of nodes comes second in the cache, after what the properties lead to, and first
where nodes are described alone. -/
theorem outlines_agree_nodes :
    (∀ t ∈ nodeManifest.types ++ nodeManifest.imports, t.loadError = none) ∧
      (Module.ofManifest "nodes.json" nodeManifest).extract {} = .ok nodeCache ∧
      nodeCache.schemas.map (·.fullName) = ["Mod.Size", "Mod.Node"] ∧
      ∃ d ∈ nodeCache.definitions, d.fullName = "Mod.NodeDef" ∧
        nodeCache.definitions.find? (fun e => e.fullName = d.fullName ∨ e.tagName = d.fullName) =
          some d ∧
        (ofManifest "nodes.json" nodeManifest {}).outline? d.fullName 3 =
          some ("Mod.NodeDef\n  -- root : Mod.Node\n    -- next : Mod.Node (recursive)\n" ++
            "    -- size : Mod.Size\n      -- x : System.Single\n") ∧
        nodeCache.outline? d.fullName 3 =
          (ofManifest "nodes.json" nodeManifest {}).outline? d.fullName 3 := by
  have hloads : ∀ t ∈ nodeManifest.types ++ nodeManifest.imports, t.loadError = none := by decide
  -- Both outlines are the same text by the theorem, so one of them is computed.
  have hextract : (Module.ofManifest "nodes.json" nodeManifest).extract {} = .ok nodeCache := by
    decide +kernel
  have hfound : ∃ d ∈ nodeCache.definitions, d.fullName = "Mod.NodeDef" ∧
      nodeCache.definitions.find? (fun e => e.fullName = d.fullName ∨ e.tagName = d.fullName) =
        some d := by decide +kernel
  obtain ⟨c, hc, hagree⟩ := outlines_agree "nodes.json" .given hloads {}
  have hcache : c = nodeCache := Except.ok.inj (hc.symm.trans hextract)
  rw [hcache] at hagree
  obtain ⟨d, hd, hname, hfirst⟩ := hfound
  obtain ⟨text, hlive, hcached⟩ := hagree d hd hfirst 3
  refine ⟨hloads, hextract, by decide +kernel, d, hd, hname, hfirst, ?_, hcached.trans hlive.symm⟩
  rw [hname]
  decide

end Pass

end SchemaGraph
