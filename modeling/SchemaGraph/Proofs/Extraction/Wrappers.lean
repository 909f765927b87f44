import SchemaGraph.Proofs.Extraction.Completion
import SchemaGraph.Proofs.Extraction.Definitions
import SchemaGraph.Proofs.Merge.NormalForm
import SchemaGraph.Proofs.SortedMap

/-!
# Wrappers

A type whose fields refer to one definition in all is a wrapper: where its values are asked for,
those of the definition are offered instead.  The fields of a type are its own and those it
inherits, but the cast table is read off the record of the type, which has its own members alone.
So the table is right about a type as long as the types above it refer to no definition.

- `Pass.HoldsOne`: of some members, exactly one refers to a definition
- `Pass.shownMembers_eq_append`: the members of a type are its own, then those it inherits
- `Pass.get?_castTable_iff`: the entry of a type, told by its own members
- `Pass.castsRightly_iff`: when the table is right about a type
- `Pass.not_castsRightly_costs`: types that it is wrong about
-/

namespace SchemaGraph

namespace Pass

variable {p : Pass} {t : TypeInfo} {c : Cache} {fullName target : String} {members : List Member}

/-! ## §1 One definition -/

/-- The declared type of the member is plain, and it is the definition base or derives from it. -/
structure RefersTo (p : Pass) (m : Member) (target : String) : Prop where
  plain : m.type = .named target
  isDefinitionType : p.isDefinitionType target = true

/-- Exactly one of the members refers to a definition, and this is the type it declares. -/
def HoldsOne (p : Pass) (members : List Member) (target : String) : Prop :=
  ∃ before m after, members = before ++ m :: after ∧ p.RefersTo m target
    ∧ ∀ m' ∈ before ++ after, ∀ name, ¬ p.RefersTo m' name

/-- The definition types that the members refer to, one for each member that does. -/
def definitionsOf (p : Pass) (members : List Member) : List String :=
  (members.filterMap (·.type.name?)).filter p.isDefinitionType

/-- The definition type that a member refers to. -/
def definitionOf? (p : Pass) (m : Member) : Option String :=
  m.type.name?.filter p.isDefinitionType

theorem definitionOf?_eq_some_iff {m : Member} :
    p.definitionOf? m = some target ↔ p.RefersTo m target := by
  have hname : m.type.name? = some target ↔ m.type = .named target := by
    cases m.type <;> simp [TypeRef.name?]
  rw [definitionOf?, Option.filter_eq_some_iff, hname]
  exact ⟨fun ⟨hplain, hdef⟩ => ⟨hplain, hdef⟩, fun ⟨hplain, hdef⟩ => ⟨hplain, hdef⟩⟩

theorem definitionOf?_eq_none_iff {m : Member} :
    p.definitionOf? m = none ↔ ∀ name, ¬ p.RefersTo m name := by
  simp only [Option.eq_none_iff_forall_ne_some, ne_eq, definitionOf?_eq_some_iff]

theorem definitionsOf_eq_filterMap : p.definitionsOf members = members.filterMap p.definitionOf? :=
  List.filter_filterMap

theorem definitionsOf_append (xs ys : List Member) :
    p.definitionsOf (xs ++ ys) = p.definitionsOf xs ++ p.definitionsOf ys := by
  rw [definitionsOf, List.filterMap_append, List.filter_append]
  rfl

theorem holdsOne_iff : p.HoldsOne members target ↔ p.definitionsOf members = [target] := by
  simp only [HoldsOne, definitionsOf_eq_filterMap, List.filterMap_eq_cons_iff,
    List.filterMap_eq_nil_iff, definitionOf?_eq_some_iff, definitionOf?_eq_none_iff,
    List.forall_mem_append]
  constructor
  · rintro ⟨before, m, after, hsplit, hrefers, hbefore, hafter⟩
    exact ⟨before, m, after, hsplit, hbefore, hrefers, hafter⟩
  · rintro ⟨before, m, after, hsplit, hbefore, hrefers, hafter⟩
    exact ⟨before, m, after, hsplit, hrefers, hbefore, hafter⟩

/-- Two lists agree on which single definition they hold, if any, exactly if they refer to the same
definitions or neither of them refers to exactly one. -/
theorem forall_holdsOne_iff {own all : List Member} :
    (∀ target, p.HoldsOne own target ↔ p.HoldsOne all target) ↔
      p.definitionsOf own = p.definitionsOf all
        ∨ (p.definitionsOf own).length ≠ 1 ∧ (p.definitionsOf all).length ≠ 1 := by
  simp only [holdsOne_iff]
  generalize p.definitionsOf own = xs
  generalize p.definitionsOf all = ys
  constructor
  · intro h
    by_cases hx : xs.length = 1
    · obtain ⟨x, rfl⟩ := List.length_eq_one_iff.1 hx
      exact .inl ((h x).1 rfl).symm
    · refine .inr ⟨hx, fun hy => hx ?_⟩
      obtain ⟨y, rfl⟩ := List.length_eq_one_iff.1 hy
      rw [(h y).2 rfl]
      rfl
  -- If neither holds exactly one, there is no target that either could hold.
  · rintro (rfl | ⟨hx, hy⟩) target
    · exact Iff.rfl
    · constructor
      · rintro rfl
        exact absurd rfl hx
      · rintro rfl
        exact absurd rfl hy

/-! ## §2 Own and inherited members -/

/-- The members that a type declares for its instances. -/
def ownMembers (p : Pass) (fullName : String) : List Member :=
  (p.module.lookup? fullName).elim [] p.keptMembers

/-- The members that a type has from the types above it, without those that it shadows. -/
def inheritedMembers (p : Pass) (fullName : String) : List Member :=
  newcomers (·.name) ((p.ownMembers fullName).map (·.name))
    (((p.module.baseChain p.conventions.universalRoot fullName).drop 1).flatMap p.keptMembers)

theorem metMembers_eq_append (hroot : fullName ≠ p.conventions.universalRoot)
    (hlookup : p.module.lookup? fullName = some t) :
    p.metMembers fullName = p.ownMembers fullName ++
      ((p.module.baseChain p.conventions.universalRoot fullName).drop 1).flatMap p.keptMembers := by
  -- The first level is the type itself.
  have hfirst := Module.getElem?_baseChain.2 (Module.isLevel_zero.2 ⟨hroot, hlookup⟩)
  unfold metMembers ownMembers
  rw [hlookup]
  cases hchain : p.module.baseChain p.conventions.universalRoot fullName with
  | nil => simp [hchain] at hfirst
  | cons u levels =>
    rw [hchain, List.getElem?_cons_zero, Option.some.injEq] at hfirst
    subst hfirst
    rfl

/-- **The members of a type** are those it declares, then those it inherits. -/
theorem shownMembers_eq_append (hroot : fullName ≠ p.conventions.universalRoot)
    (hlookup : p.module.lookup? fullName = some t)
    (hdistinct : ((p.ownMembers fullName).map (·.name)).Nodup) :
    p.shownMembers fullName = p.ownMembers fullName ++ p.inheritedMembers fullName := by
  have hown : newcomers (·.name) [] (p.ownMembers fullName) = p.ownMembers fullName :=
    newcomers_eq_self hdistinct fun _ _ => List.not_mem_nil
  rw [shownMembers, metMembers_eq_append hroot hlookup, newcomers_append, keysWith, hown]
  rfl

/-- The fields of a type are made of its members, one of each. -/
theorem forall₂_made_of_flatten {s : State} {fields : List Field}
    (h : (p.flatten fullName s).1 = .ok fields) :
    List.Forall₂ (p.Made fun _ _ => True) (p.shownMembers fullName) fields := by
  obtain ⟨-, -, hspelled⟩ := (supports_anyState (p.request p.depthBound)).keeps_flattenWith p
    fullName s s trivial trivial
  obtain ⟨members, hmembers, hmade⟩ := hspelled fields h
  obtain ⟨-, rfl⟩ := allMembers_eq_some.1 hmembers
  exact hmade

/-! ## §3 Entries of the table -/

theorem wrapped?_eq_some_iff {record : TypeRecord} :
    p.wrapped? record = some target ↔ p.HoldsOne record.members target := by
  rw [holdsOne_iff, definitionsOf, wrapped?]
  split
  next only honly => rw [honly, Option.some.injEq, List.singleton_inj]
  next hmany => exact iff_of_false nofun (hmany target)

/-- The definition type that a type is cast to, if it is a candidate. -/
def castOf? (p : Pass) (fullName : String) : Option String :=
  (p.module.introspect p.conventions fullName).toOption.bind p.wrapped?

/-- A type that can be read is cast by its own members. -/
theorem castOf?_eq_some_iff (hlookup : p.module.lookup? fullName = some t)
    (hload : t.loadError = none) :
    p.castOf? fullName = some target ↔ p.HoldsOne (p.ownMembers fullName) target := by
  obtain ⟨record, hrecord⟩ := introspect_of_readable (p := p) hlookup hload
  obtain ⟨-, hmembers⟩ := introspect_eq_ok hlookup hrecord
  -- The own members of a readable type are those of its record.
  have hcast : p.castOf? fullName = p.wrapped? record := by
    rw [castOf?, hrecord]
    rfl
  have hown : p.ownMembers fullName = record.members := by
    rw [ownMembers, hlookup, hmembers]
    rfl
  rw [hcast, hown, wrapped?_eq_some_iff]

/-- The entries of the table, one for each declaration. -/
def castEntries (p : Pass) : List (String × String) :=
  (p.module.types.filter p.isWrapperCandidate).filterMap fun t =>
    (p.castOf? t.fullName).map (t.fullName, ·)

theorem castTable_eq_ofList : p.castTable = SortedMap.ofList p.castEntries := by
  rw [castTable, castEntries]
  congr 2
  funext t
  simp only [castOf?]
  cases p.module.introspect p.conventions t.fullName <;> rfl

theorem mem_castEntries :
    (fullName, target) ∈ p.castEntries ↔
      (∃ t ∈ p.module.types, p.isWrapperCandidate t = true ∧ t.fullName = fullName)
        ∧ p.castOf? fullName = some target := by
  simp only [castEntries, List.mem_filterMap, List.mem_filter, Option.map_eq_some_iff,
    Prod.mk.injEq]
  constructor
  · rintro ⟨t, ⟨hown, hcandidate⟩, _, hcast, rfl, rfl⟩
    exact ⟨⟨t, hown, hcandidate, rfl⟩, hcast⟩
  · rintro ⟨⟨t, hown, hcandidate, rfl⟩, hcast⟩
    exact ⟨t, ⟨hown, hcandidate⟩, target, hcast, rfl, rfl⟩

/-- **The entries of the table** are those of the candidates; of several declarations of a name the
one that it is looked up to counts. -/
theorem get?_castTable_iff :
    p.castTable.get? fullName = some target ↔
      (∃ t ∈ p.module.types, p.isWrapperCandidate t = true ∧ t.fullName = fullName)
        ∧ p.castOf? fullName = some target := by
  rw [castTable_eq_ofList, SortedMap.get?_ofList_iff, mem_castEntries]
  -- What a name is cast to does not depend on the declaration that asks.
  rintro ⟨name, v⟩ he ⟨name', v'⟩ he' (rfl : name = name')
  have hv := (mem_castEntries.1 he).2
  rw [(mem_castEntries.1 he').2] at hv
  exact (Option.some.inj hv).symm

/-! ## §4 The table of an extracted cache -/

/-- The table casts the type to a definition exactly if one of its fields, inherited ones included,
refers to a definition, and then to that one. -/
def CastsRightly (p : Pass) (table : SortedMap String) (fullName : String) : Prop :=
  ∀ target, table.get? fullName = some target ↔ p.HoldsOne (p.shownMembers fullName) target

/-- **What the table says of a type**, and when it is right. -/
structure Casting (p : Pass) (table : SortedMap String) (fullName : String) : Prop where
  /-- The entry is told by the members that the type declares itself. -/
  entry : ∀ target, table.get? fullName = some target ↔
    p.HoldsOne (p.ownMembers fullName) target
  /-- It is right if these refer to the same definitions as all members do, and also if neither of
  them refer to exactly one. -/
  rightly : p.CastsRightly table fullName ↔
    p.definitionsOf (p.ownMembers fullName) = p.definitionsOf (p.shownMembers fullName)
      ∨ (p.definitionsOf (p.ownMembers fullName)).length ≠ 1
        ∧ (p.definitionsOf (p.shownMembers fullName)).length ≠ 1
  /-- Below the root this is so if the type inherits no reference to a definition, or has two of its
  own already, or inherits at least two and has none of its own. -/
  inheriting : fullName ≠ p.conventions.universalRoot →
    ((p.ownMembers fullName).map (·.name)).Nodup →
      (p.CastsRightly table fullName ↔
        p.definitionsOf (p.inheritedMembers fullName) = []
          ∨ 2 ≤ (p.definitionsOf (p.ownMembers fullName)).length
          ∨ p.definitionsOf (p.ownMembers fullName) = []
            ∧ 2 ≤ (p.definitionsOf (p.inheritedMembers fullName)).length)
  /-- The fields of the type are made of all these members, in every state of a session. -/
  fields : ∀ s fields, (p.flatten fullName s).1 = .ok fields →
    List.Forall₂ (p.Made fun _ _ => True) (p.shownMembers fullName) fields

/-- Own definitions and all of them, where the inherited ones come behind. -/
theorem eq_append_or_length_iff {α : Type} {own inherited : List α} :
    own = own ++ inherited ∨ own.length ≠ 1 ∧ (own ++ inherited).length ≠ 1 ↔
      inherited = [] ∨ 2 ≤ own.length ∨ own = [] ∧ 2 ≤ inherited.length := by
  rw [List.self_eq_append_right, List.length_append, ← List.length_eq_zero_iff,
    ← List.length_eq_zero_iff]
  omega

/-- The table of a module that can be read, at a type of its own. -/
theorem casting_castTable (hloads : p.module.Loads) (hown : t ∈ p.module.types)
    (hcandidate : p.isWrapperCandidate t = true) : p.Casting p.castTable t.fullName := by
  -- Only own candidates have entries, and this type is one of them.
  obtain ⟨u, -, -, hlookup⟩ := Module.exists_own_of_mem (List.mem_map_of_mem hown)
  have hload : u.loadError = none := hloads u (Module.lookup?_eq_some hlookup).1
  have hentry : ∀ target, p.castTable.get? t.fullName = some target ↔
      p.HoldsOne (p.ownMembers t.fullName) target := by
    intro target
    rw [get?_castTable_iff, castOf?_eq_some_iff hlookup hload]
    exact and_iff_right ⟨t, hown, hcandidate, rfl⟩
  have hrightly : p.CastsRightly p.castTable t.fullName ↔
      p.definitionsOf (p.ownMembers t.fullName) = p.definitionsOf (p.shownMembers t.fullName)
        ∨ (p.definitionsOf (p.ownMembers t.fullName)).length ≠ 1
          ∧ (p.definitionsOf (p.shownMembers t.fullName)).length ≠ 1 := by
    -- The inherited members that are shown are added behind the own ones.
    simp only [CastsRightly, hentry]
    exact forall_holdsOne_iff
  refine ⟨hentry, hrightly, fun hroot hdistinct => ?_, fun s fields => forall₂_made_of_flatten⟩
  rw [hrightly, shownMembers_eq_append hroot hlookup hdistinct, definitionsOf_append]
  exact eq_append_or_length_iff

/-- **Casts of an extracted cache**: a type has an entry if exactly one of the members that it
declares itself refers to a definition.  Its inherited fields have no say in that, so the entry is
missing or misleading where they refer to definitions as well, unless there are several of them
either way. -/
theorem castsRightly_iff {path : String} {manifest : ModuleManifest} {keys : KeyOrder}
    {conventions : Conventions}
    {base : TypeInfo} (hload : ∀ u ∈ manifest.types ++ manifest.imports, u.loadError = none)
    (hbase : (Module.ofManifest path manifest keys).lookup? conventions.definitionBase = some base)
    (hextract : (Module.ofManifest path manifest keys).extract conventions = .ok c)
    (hown : t ∈ (Module.ofManifest path manifest keys).types)
    (hcandidate : (ofManifest path manifest conventions keys).isWrapperCandidate t = true) :
    (ofManifest path manifest conventions keys).Casting c.castTable t.fullName := by
  obtain ⟨_, _, _, _, _, _, _, _, _, _, _, htable⟩ :=
    extract_eq_ok (p := ofManifest path manifest conventions keys) hbase hextract
  rw [htable]
  exact casting_castTable (Module.loads_ofManifest hload) hown hcandidate

/-- A cost refers to one definition, a trade to another one beside that of its cost, and a gift to
that of its cost alone. -/
def costManifest : ModuleManifest where
  name := "Wrappers"
  types :=
    [TypeInfo.ofClass "Verse.Def",
      (TypeInfo.ofClass "Verse.StatDef").withBase "Verse.Def",
      (TypeInfo.ofClass "Mod.Cost").withMember { name := "stat", type := .named "Verse.StatDef" },
      ((TypeInfo.ofClass "Mod.Trade").withBase "Mod.Cost").withMember
        { name := "price", type := .named "Verse.StatDef" },
      (TypeInfo.ofClass "Mod.Gift").withBase "Mod.Cost"]

/-- The cache that is extracted from the costs. -/
def costCache : Cache :=
  ((Module.ofManifest "costs.json" costManifest).extract {}).toOption.getD .empty

/-- The table is right about the cost, which inherits nothing. -/
theorem castsRightly_iff_cost :
    let p := ofManifest "costs.json" costManifest {}
    let cost := (TypeInfo.ofClass "Mod.Cost").withMember
      { name := "stat", type := .named "Verse.StatDef" }
    (∀ u ∈ costManifest.types ++ costManifest.imports, u.loadError = none)
      ∧ (Module.ofManifest "costs.json" costManifest).lookup? "Verse.Def" =
          some (TypeInfo.ofClass "Verse.Def")
      ∧ (Module.ofManifest "costs.json" costManifest).extract {} = .ok costCache
      ∧ cost ∈ (Module.ofManifest "costs.json" costManifest).types
      ∧ p.isWrapperCandidate cost = true
      ∧ p.Casting costCache.castTable "Mod.Cost"
      ∧ p.CastsRightly costCache.castTable "Mod.Cost" := by
  intro p cost
  have hload : ∀ u ∈ costManifest.types ++ costManifest.imports, u.loadError = none := by decide
  have hbase : (Module.ofManifest "costs.json" costManifest).lookup? "Verse.Def" =
      some (TypeInfo.ofClass "Verse.Def") := by decide
  have hextract : (Module.ofManifest "costs.json" costManifest).extract {} = .ok costCache := by
    decide +kernel
  have hown : cost ∈ (Module.ofManifest "costs.json" costManifest).types := by decide
  have hcandidate : p.isWrapperCandidate cost = true := by decide
  -- The cost has one member of its own, and this is the only definition that it refers to at all.
  have hcasting : p.Casting costCache.castTable "Mod.Cost" :=
    castsRightly_iff hload hbase hextract hown hcandidate
  have hdefinitions : p.definitionsOf (p.ownMembers "Mod.Cost") =
      p.definitionsOf (p.shownMembers "Mod.Cost") := by decide
  exact ⟨hload, hbase, hextract, hown, hcandidate, hcasting,
    hcasting.rightly.2 (.inl hdefinitions)⟩

theorem acyclic_costs : (Module.ofManifest "costs.json" costManifest).Acyclic :=
  Module.acyclic_of_order (costManifest.types.map (·.fullName)) (by decide)

/-- **A trade is cast to one of its two definitions, and a gift is not cast to its only one.** -/
theorem not_castsRightly_costs :
    let p := ofManifest "costs.json" costManifest {}
    (∀ u ∈ costManifest.types ++ costManifest.imports, u.loadError = none)
      ∧ p.module.Acyclic
      ∧ p.module.lookup? "Verse.Def" = some (TypeInfo.ofClass "Verse.Def")
      ∧ p.module.extract {} = .ok costCache
      ∧ (p.module.types.filter p.isWrapperCandidate).map (·.fullName) =
          ["Verse.Def", "Verse.StatDef", "Mod.Cost", "Mod.Trade", "Mod.Gift"]
      ∧ costCache.castTable.entries =
          [("Mod.Cost", "Verse.StatDef"), ("Mod.Trade", "Verse.StatDef")]
      ∧ (p.flatten "Mod.Trade" start).1.toOption.map (·.map fun f => (f.name, f.declaredType)) =
          some [("price", "Verse.StatDef"), ("stat", "Verse.StatDef")]
      ∧ (p.flatten "Mod.Gift" start).1.toOption.map (·.map fun f => (f.name, f.declaredType)) =
          some [("stat", "Verse.StatDef")]
      ∧ ¬ p.CastsRightly costCache.castTable "Mod.Trade"
      ∧ ¬ p.CastsRightly costCache.castTable "Mod.Gift" := by
  intro p
  -- The entry stands for one definition, but the trade refers to two.
  refine ⟨by decide, acyclic_costs, by decide, by decide +kernel, by decide,
    by decide +kernel, by decide +kernel, by decide, fun htrade => ?_, fun hgift => ?_⟩
  · have hentry : costCache.castTable.get? "Mod.Trade" = some "Verse.StatDef" := by decide +kernel
    have hmany : p.definitionsOf (p.shownMembers "Mod.Trade") ≠ ["Verse.StatDef"] := by
      -- The gift inherits its definition, so it has no member of its own to be cast by.
      decide +kernel
    exact hmany (holdsOne_iff.1 ((htrade _).1 hentry))
  · have hnone : costCache.castTable.get? "Mod.Gift" ≠ some "Verse.StatDef" := by decide
    have hone : p.definitionsOf (p.shownMembers "Mod.Gift") = ["Verse.StatDef"] := by
      decide
    exact hnone ((hgift _).2 (holdsOne_iff.2 hone))

end Pass

end SchemaGraph
