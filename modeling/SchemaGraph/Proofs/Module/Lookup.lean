import Mathlib.Data.List.Nodup
import SchemaGraph.Module.Index

/-!
# Looking up Declarations

What the look-up of a name tells about the declarations of a module, and which names a module
declares at all.
-/

namespace SchemaGraph

namespace Module

variable {m : Module} {types : List TypeInfo} {name : String} {t : TypeInfo}

/-! ## §1 The last declaration of a name -/

theorem lastNamed?_eq_some (h : lastNamed? types name = some t) :
    t ∈ types ∧ t.fullName = name := by
  unfold lastNamed? at h
  have hmem := List.mem_of_find?_eq_some h
  have hname := List.find?_some h
  exact ⟨List.mem_reverse.1 hmem, of_decide_eq_true hname⟩

/-- Without repeated names the last declaration of a name is the only one. -/
theorem lastNamed?_eq_some_iff (hdistinct : (types.map (·.fullName)).Nodup) :
    lastNamed? types name = some t ↔ t ∈ types ∧ t.fullName = name := by
  refine ⟨lastNamed?_eq_some, fun ⟨hmem, hname⟩ => ?_⟩
  cases h : lastNamed? types name with
  | none =>
    have hnone := List.find?_eq_none.1 h t (List.mem_reverse.2 hmem)
    simp [hname] at hnone
  | some u =>
    obtain ⟨humem, huname⟩ := lastNamed?_eq_some h
    rw [List.inj_on_of_nodup_map hdistinct humem hmem (huname.trans hname.symm)]

theorem exists_lastNamed?_of_isOwn (h : m.isOwn name = true) :
    ∃ t, lastNamed? m.types name = some t := by
  obtain ⟨t, ht, hname⟩ := List.any_eq_true.1 h
  rw [← Option.isSome_iff_exists, lastNamed?, List.find?_isSome]
  exact ⟨t, List.mem_reverse.2 ht, hname⟩

/-- Without repeated names an own name is looked up to its only declaration. -/
theorem lookup?_of_mem_own (hdistinct : (m.types.map (·.fullName)).Nodup) (ht : t ∈ m.types) :
    m.lookup? t.fullName = some t := by
  rw [lookup?, (lastNamed?_eq_some_iff hdistinct).2 ⟨ht, rfl⟩]

/-- The declaration of an own name is an own type. -/
theorem exists_own_of_mem (h : name ∈ m.types.map (·.fullName)) :
    ∃ t ∈ m.types, t.fullName = name ∧ m.lookup? name = some t := by
  obtain ⟨u, hu, rfl⟩ := List.mem_map.1 h
  have hown : m.isOwn u.fullName = true := List.any_eq_true.2 ⟨u, hu, by simp⟩
  obtain ⟨t, ht⟩ := exists_lastNamed?_of_isOwn hown
  obtain ⟨hmem, hname⟩ := lastNamed?_eq_some ht
  exact ⟨t, hmem, hname, by simp [lookup?, ht]⟩

/-- Reading a manifest leaves the full names as they are. -/
theorem map_fullName_ofManifest {path : String} {manifest : ModuleManifest} {keys : KeyOrder} :
    (ofManifest path manifest keys).types.map (·.fullName) = manifest.types.map (·.fullName) := by
  rw [ofManifest, List.map_map]
  rfl

/-! ## §2 Declared names -/

/-- The full name or the short name of a declaration, an own or an imported one. -/
def Names (m : Module) (name : String) : Prop :=
  ∃ t ∈ m.types ++ m.imports, name = t.fullName ∨ name = t.name

/-- What a name is looked up to is a declaration of that name. -/
theorem lookup?_eq_some (h : m.lookup? name = some t) :
    t ∈ m.types ++ m.imports ∧ t.fullName = name := by
  unfold lookup? at h
  cases hown : lastNamed? m.types name with
  | some u =>
    rw [hown] at h
    cases h
    exact ⟨List.mem_append_left _ (lastNamed?_eq_some hown).1, (lastNamed?_eq_some hown).2⟩
  | none =>
    rw [hown] at h
    exact ⟨List.mem_append_right _ (lastNamed?_eq_some h).1, (lastNamed?_eq_some h).2⟩

theorem names_of_lookup? (h : m.lookup? name = some t) : m.Names name ∧ m.Names t.name := by
  obtain ⟨hmem, hname⟩ := lookup?_eq_some h
  exact ⟨⟨t, hmem, .inl hname.symm⟩, ⟨t, hmem, .inr rfl⟩⟩

end Module

end SchemaGraph
