import SchemaGraph.Proofs.Module.SubtypeTable

/-!
# The Two Walks Agree

The table of subtypes and the walk up the base types decide alike which types derive from a type,
unless an imported type stands in between: the table is filled from own types only, and the walk
follows imported declarations as well.

- `Module.mem_allSubtypes_iff_isAssignableTo_iff`: when the two agree
- `Module.gun_not_mem_allSubtypes`: where they do not
-/

namespace SchemaGraph

namespace Module

variable {m : Module} {x a : String}

/-- **Agreement**: an own type is found below another type exactly if it can be assigned to it,
unless the way between the two crosses an imported type. -/
theorem mem_allSubtypes_iff_isAssignableTo_iff (hdistinct : m.DistinctNames)
    (hacyclic : m.Acyclic) (hne : x ≠ a) :
    (x ∈ m.allSubtypes a ↔ m.isAssignableTo x a = true) ↔ ¬ m.CrossesImport x a := by
  have hown : (m.types.map (·.fullName)).Nodup := by
    rw [DistinctNames, List.map_append] at hdistinct
    exact hdistinct.of_append_left
  rw [hacyclic.noMutualBases.mem_allSubtypes_iff hown, isAssignableTo_iff]
  constructor
  -- The imported type that is crossed lies on the only way up, which own types alone do not make.
  · rintro hagree ⟨t, ht, hta, hxt, hta'⟩
    obtain ⟨i, hi⟩ := isAssignableTo_iff.1 hxt
    obtain ⟨j, hj⟩ := isAssignableTo_iff.1 hta'
    obtain ⟨n, hn⟩ := hagree.2 ⟨i + j, climb_from hi hj⟩
    have hup := climb_base?_of_climb_ownBase? hn
    exact (crossesImport_iff hdistinct hacyclic hup).1 ⟨t, ht, hta, hxt, hta'⟩ hn
  · intro hcross
    constructor
    -- What is found is always assignable; for the other direction the way has to avoid imported
    -- types.
    · rintro ⟨n, hn⟩
      exact ⟨n + 1, climb_base?_of_climb_ownBase? hn⟩
    · rintro ⟨n | n, hn⟩
      · exact absurd (Option.some.inj hn) hne
      · exact ⟨n, not_not.1 fun h => hcross ((crossesImport_iff hdistinct hacyclic hn).2 h)⟩

/-- An add-on with spells of its own, and with a gun below an imported definition type. -/
def addon : Module := .ofManifest "addon.json"
  { name := "Addon"
    types :=
      [(TypeInfo.ofClass "Addon.SpellDef").withBase "Verse.Def",
        (TypeInfo.ofClass "Addon.FireSpellDef").withBase "Addon.SpellDef",
        (TypeInfo.ofClass "Addon.GunDef").withBase "Verse.ThingDef"]
    imports :=
      [TypeInfo.ofClass "Verse.Def", (TypeInfo.ofClass "Verse.ThingDef").withBase "Verse.Def"] }

theorem distinctNames_addon : addon.DistinctNames := by
  unfold DistinctNames
  decide

theorem acyclic_addon : addon.Acyclic :=
  acyclic_of_order ["Verse.Def", "Verse.ThingDef", "Addon.SpellDef"] (by decide)

/-- The fire spell is found, the gun is not. -/
theorem agreement_addon :
    addon.DistinctNames ∧ addon.Acyclic
      ∧ ("Addon.FireSpellDef" ∈ addon.allSubtypes "Verse.Def" ↔
          addon.isAssignableTo "Addon.FireSpellDef" "Verse.Def" = true)
      ∧ ¬ ("Addon.GunDef" ∈ addon.allSubtypes "Verse.Def" ↔
          addon.isAssignableTo "Addon.GunDef" "Verse.Def" = true) := by
  refine ⟨distinctNames_addon, acyclic_addon, ?_, ?_⟩
  · refine (mem_allSubtypes_iff_isAssignableTo_iff distinctNames_addon acyclic_addon
      (by decide)).2 ?_
    unfold CrossesImport
    decide
  · rw [mem_allSubtypes_iff_isAssignableTo_iff distinctNames_addon acyclic_addon (by decide)]
    unfold CrossesImport
    decide

/-- An own type whose way up crosses an imported type is lost: it can be assigned to the definition
base and is not among its subtypes. -/
theorem gun_not_mem_allSubtypes :
    addon.DistinctNames ∧ addon.Acyclic ∧ addon.isOwn "Addon.GunDef" = true
      ∧ "Addon.GunDef" ≠ "Verse.Def"
      ∧ addon.isAssignableTo "Addon.GunDef" "Verse.Def" = true
      ∧ "Addon.GunDef" ∉ addon.allSubtypes "Verse.Def" :=
  ⟨distinctNames_addon, acyclic_addon, by decide⟩

end Module

end SchemaGraph
