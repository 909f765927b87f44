import Mathlib.Data.List.Nodup
import SchemaGraph.Extraction.Registry

/-!
# Names of a Registry

Entries are found by name.  The names of the two arenas, in the order of their places, are all that
a look-up depends on; taking a place adds one name at the end, and nothing else changes a name.
-/

namespace SchemaGraph

/-! ## §1 Entries with a name -/

section Entries

variable {α : Type} {name : α → String} {xs : List α} {n : String} {i : Nat}

theorem findIdx?_name (hnodup : (xs.map name).Nodup) :
    xs.findIdx? (fun x => name x = n) = some i ↔ (xs.map name)[i]? = some n := by
  rw [List.findIdx?_eq_some_iff_getElem, List.getElem?_eq_some_iff]
  simp only [decide_eq_true_eq, List.getElem_map, List.length_map]
  constructor
  · rintro ⟨hi, hname, -⟩
    exact ⟨hi, hname⟩
  · rintro ⟨hi, hname⟩
    refine ⟨hi, hname, fun j hj hname' => ?_⟩
    -- An earlier entry of the same name would be a repetition.
    have hjlt : j < xs.length := Nat.lt_trans hj hi
    have hsame : (xs.map name)[j]? = (xs.map name)[i]? := by simp [hi, hjlt, hname, hname']
    have hji : j = i := (List.getElem?_inj (by simpa using hjlt) hnodup).1 hsame
    omega

theorem map_modify {β : Type} {key : α → β} {update : α → α} (hkey : ∀ x, key (update x) = key x)
    (xs : List α) : (xs.modify i update).map key = xs.map key := by
  induction xs generalizing i with
  | nil => simp
  | cons x xs ih => cases i <;> simp [hkey, ih]

theorem mem_modify_iff {y : α} (update : α → α) (hname : ∀ x, name (update x) = name x)
    (hnodup : (xs.map name).Nodup) (hi : (xs.map name)[i]? = some n) :
    y ∈ xs.modify i update ↔
      (name y = n ∧ ∃ x ∈ xs, name x = n ∧ y = update x) ∨ (name y ≠ n ∧ y ∈ xs) := by
  obtain ⟨x, hx, rfl⟩ : ∃ x, xs[i]? = some x ∧ name x = n := by simpa using hi
  -- Another entry has another name.
  have hother : ∀ (j : Nat) z, xs[j]? = some z → name z = name x → j = i := by
    intro j z hz heq
    have hj : j < (xs.map name).length := by simpa using (List.getElem?_eq_some_iff.1 hz).1
    exact (List.getElem?_inj hj hnodup).1 (by simp [hz, hx, heq])
  simp only [List.mem_iff_getElem?, List.getElem?_modify]
  constructor
  · rintro ⟨j, hj⟩
    by_cases hij : i = j
    · subst hij
      obtain rfl : update x = y := by simpa [hx] using hj
      exact .inl ⟨hname x, x, ⟨i, hx⟩, rfl, rfl⟩
    · have hj' : xs[j]? = some y := by simpa [hij] using hj
      exact .inr ⟨fun heq => hij (hother j y hj' heq).symm, j, hj'⟩
  -- In the other direction, the entry is where it was, or where the update is.
  · rintro (⟨-, z, ⟨j, hz⟩, heq, rfl⟩ | ⟨hne, j, hj⟩)
    · obtain rfl := hother j z hz heq
      exact ⟨j, by simp [hz]⟩
    · have hij : i ≠ j := by
        rintro rfl
        exact hne (by rw [Option.some.inj (hj.symm.trans hx)])
      exact ⟨j, by simp [hij, hj]⟩

/-- A place keeps its name while names are added. -/
theorem getElem?_of_prefix {xs ys : List String} (hpre : xs <+: ys) (hn : xs[i]? = some n) :
    ys[i]? = some n := by
  obtain ⟨rest, rfl⟩ := hpre
  exact (List.getElem?_append_left (List.getElem?_eq_some_iff.1 hn).1).trans hn

end Entries

namespace Registry

/-! ## §2 The names of the arenas -/

/-- The names of the schemas, in the order of their places. -/
def schemaNames (r : Registry) : List String := r.schemas.map (·.fullName)

/-- The names of the variants, in the order of their places. -/
def variantNames (r : Registry) : List String := r.variants.map (·.fullName)

variable {r : Registry} {typeName shortName : String} {h : Handle} {i : Nat} {fields : List Field}
  {special : Bool} {e : IntrospectionError}

@[simp] theorem schemaNames_reserveSchema :
    (r.reserveSchema typeName).schemaNames = r.schemaNames ++ [typeName] := by
  simp [reserveSchema, schemaNames, Schema.placeholder]

@[simp] theorem variantNames_reserveSchema :
    (r.reserveSchema typeName).variantNames = r.variantNames := rfl

@[simp] theorem schemaNames_reserveVariant :
    (r.reserveVariant typeName shortName special).schemaNames = r.schemaNames := rfl

@[simp] theorem variantNames_reserveVariant :
    (r.reserveVariant typeName shortName special).variantNames = r.variantNames ++ [shortName] := by
  simp [reserveVariant, variantNames, Variant.placeholder]

@[simp] theorem schemaNames_fillSchema : (r.fillSchema i fields).schemaNames = r.schemaNames := by
  simp [fillSchema, schemaNames, map_modify]

@[simp] theorem variantNames_fillSchema :
    (r.fillSchema i fields).variantNames = r.variantNames := rfl

@[simp] theorem schemaNames_fillVariant :
    (r.fillVariant i fields).schemaNames = r.schemaNames := rfl

@[simp] theorem variantNames_fillVariant :
    (r.fillVariant i fields).variantNames = r.variantNames := by
  simp [fillVariant, variantNames, map_modify]

@[simp] theorem schemaNames_recordFailure :
    (r.recordFailure typeName e).schemaNames = r.schemaNames := rfl

@[simp] theorem variantNames_recordFailure :
    (r.recordFailure typeName e).variantNames = r.variantNames := rfl

theorem getElem?_schemaNames_reserveSchema :
    (r.reserveSchema typeName).schemaNames[r.schemas.length]? = some typeName := by
  rw [schemaNames_reserveSchema]
  simp [schemaNames]

theorem getElem?_variantNames_reserveVariant :
    (r.reserveVariant typeName shortName special).variantNames[r.variants.length]? =
      some shortName := by
  rw [variantNames_reserveVariant]
  simp [variantNames]

/-! ## §3 Looking up names -/

theorem schemaHandle?_eq_some (hnodup : r.schemaNames.Nodup) :
    r.schemaHandle? typeName = some h ↔ r.failure? typeName = none ∧
      ∃ i : Nat, r.schemaNames[i]? = some typeName ∧ h = i := by
  unfold schemaHandle?
  cases hfailure : r.failure? typeName with
  | some e => simp
  | none =>
    simp only [true_and, Option.map_eq_some_iff, findIdx?_name hnodup]
    exact exists_congr fun i => and_congr_right fun _ => eq_comm

theorem variantHandle?_eq_some (hnodup : r.variantNames.Nodup) :
    r.variantHandle? shortName = some h ↔
      ∃ i : Nat, r.variantNames[i]? = some shortName ∧ h = i := by
  simp only [variantHandle?, Option.map_eq_some_iff, findIdx?_name hnodup]
  exact exists_congr fun i => and_congr_right fun _ => eq_comm

theorem schemaHandle?_eq_none :
    r.schemaHandle? typeName = none ↔ r.failure? typeName ≠ none ∨ typeName ∉ r.schemaNames := by
  unfold schemaHandle?
  cases r.failure? typeName <;> simp [schemaNames, List.findIdx?_eq_none_iff]

theorem variantHandle?_eq_none :
    r.variantHandle? shortName = none ↔ shortName ∉ r.variantNames := by
  simp [variantHandle?, variantNames, List.findIdx?_eq_none_iff]

end Registry

end SchemaGraph
