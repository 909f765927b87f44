import Mathlib.Data.List.Induction
import SchemaGraph.Proofs.Merge.Matching
import SchemaGraph.Proofs.Merge.Plan

/-!
# What a Merge Does to Schemas

A merge settles the new handle of an incoming schema before anything is appended, by comparing it
with schemas of the base and with schemas that still wait and speak of other variants.  This
module compares the outcome with a description that mentions neither plans nor keys: the appended
schemas are those that match nothing before them, and a renamed handle points at the first schema
of the merged arena that matches.

- `newcomers_eq_fresh`: interning by key keeps what is the same as nothing before it
- `MergePlan.renamesInto`: where handles go, as first positions in the merged arenas
- `Cache.merge_reconciles`: the whole merge in these terms
-/

namespace SchemaGraph

/-! ## §1 Fresh entries and first positions -/

section Lists

variable {α κ : Type}

/-- The entries, in order, that are not known and that no earlier entry is the same as. -/
def fresh (known : α → Prop) (same : α → α → Prop) [DecidablePred known] [DecidableRel same]
    (xs : List α) : List α :=
  (xs.zipIdx.filter fun (p : α × Nat) => ¬ known p.1 ∧ ∀ y ∈ xs.take p.2, ¬ same y p.1).map (·.1)

/-- The property holds at `k` and at no earlier position. -/
structure FirstAt (P : α → Prop) (xs : List α) (k : Nat) : Prop where
  lt : k < xs.length
  holds : P xs[k]
  first : ∀ j (hj : j < xs.length), j < k → ¬ P xs[j]

/-- The last entry stands behind all others. -/
theorem zipIdx_append_singleton (xs : List α) (x : α) :
    (xs ++ [x]).zipIdx = xs.zipIdx ++ [(x, xs.length)] := by
  rw [List.zipIdx_append, Nat.zero_add]
  rfl

/-- What stands before an entry does not change when the list grows. -/
theorem take_append_of_mem_zipIdx {xs : List α} {p : α × Nat} (hp : p ∈ xs.zipIdx)
    (ys : List α) : (xs ++ ys).take p.2 = xs.take p.2 := by
  have hlt : p.2 < 0 + xs.length := (List.mem_zipIdx hp).2.1
  exact List.take_append_of_le_length (by omega)

section Fresh

variable {known : α → Prop} {same : α → α → Prop} [DecidablePred known] [DecidableRel same]

/-- The last entry is met after all others. -/
theorem fresh_append_singleton (xs : List α) (x : α) :
    fresh known same (xs ++ [x]) =
      fresh known same xs ++ if ¬ known x ∧ ∀ y ∈ xs, ¬ same y x then [x] else [] := by
  -- For the entries of `xs` there is nothing new before them.
  have hfilter : xs.zipIdx.filter
        (fun (p : α × Nat) => ¬ known p.1 ∧ ∀ y ∈ (xs ++ [x]).take p.2, ¬ same y p.1) =
      xs.zipIdx.filter (fun (p : α × Nat) => ¬ known p.1 ∧ ∀ y ∈ xs.take p.2, ¬ same y p.1) :=
    List.filter_congr fun p hp => by simp only [take_append_of_mem_zipIdx hp]
  rw [fresh, zipIdx_append_singleton, List.filter_append, List.map_append, hfilter, ← fresh]
  rw [List.filter_cons]
  simp only [List.filter_nil, List.take_left, decide_eq_true_eq]
  split <;> rfl

/-- **Interning keeps what is fresh**, when being known and being the same are read off keys. -/
theorem newcomers_eq_fresh [DecidableEq κ] {key : α → κ} {keys : List κ}
    (hknown : ∀ x, known x ↔ key x ∈ keys) (hsame : ∀ x y, same y x ↔ key y = key x)
    (xs : List α) : newcomers key keys xs = fresh known same xs := by
  induction xs using List.reverseRecOn with
  | nil => rfl
  | append_singleton xs x ih =>
    -- What earlier entries leave known are their keys.
    have hx : key x ∈ keysWith key keys xs ↔ ¬ (¬ known x ∧ ∀ y ∈ xs, ¬ same y x) := by
      rw [mem_keysWith, List.mem_map, hknown]
      simp only [hsame, not_and_or, not_not, not_forall, exists_prop]
    rw [newcomers_append, ih, fresh_append_singleton, newcomers]
    by_cases hmem : key x ∈ keysWith key keys xs
    · rw [if_pos hmem, if_neg (hx.1 hmem), newcomers]
    · rw [if_neg hmem, if_pos (not_not.1 (mt hx.2 hmem)), newcomers]

theorem length_fresh_le (xs : List α) : (fresh known same xs).length ≤ xs.length := by
  rw [fresh, List.length_map]
  exact Nat.le_trans (List.length_filter_le _ _) (Nat.le_of_eq List.length_zipIdx)

end Fresh

/-- The place of a key is the first position of an entry with that key. -/
theorem firstAt_idxOf [DecidableEq κ] {key : α → κ} {xs : List α} {k : κ} (h : k ∈ xs.map key) :
    FirstAt (fun x => key x = k) xs ((xs.map key).idxOf k) := by
  have hlt : (xs.map key).idxOf k < (xs.map key).length := List.idxOf_lt_length_of_mem h
  have hlt' : (xs.map key).idxOf k < xs.length := List.length_map key ▸ hlt
  refine ⟨hlt', ?_, fun j hj hjk hkey => ?_⟩
  · have hget : (xs.map key)[(xs.map key).idxOf k] = k := List.getElem_idxOf hlt
    rwa [List.getElem_map] at hget
  · have hj' : j < (xs.map key).length := Nat.lt_trans hjk hlt
    have hother : ((xs.map key)[j] == k) = false := List.not_of_lt_findIdx hjk
    rw [List.getElem_map] at hother
    exact absurd hkey (ne_of_beq_false hother)

end Lists

/-! ## §2 Where handles go -/

/-- The handles of `other` are renamed into the arenas of `merged`: that of a variant to the
first variant of its short name, that of a schema to the first schema that matches it, variants
being compared by their new handles.  What is no entry of `other` keeps its handle. -/
structure RenamesInto (merged other : Cache) (schemaName variantName : Handle → Handle) :
    Prop where
  variant : ∀ i (hi : i < other.variants.length), ∃ k : Nat, variantName (i : Int) = k ∧
    FirstAt (fun v => v.fullName = other.variants[i].fullName) merged.variants k
  noVariant : ∀ h : Handle, h < 0 ∨ other.variants.length ≤ h → variantName h = h
  schema : ∀ i (hi : i < other.schemas.length), ∃ k : Nat, schemaName (i : Int) = k ∧
    FirstAt (fun s => s.Matches id variantName other.schemas[i]) merged.schemas k
  noSchema : ∀ h : Handle, h < 0 ∨ other.schemas.length ≤ h → schemaName h = h

namespace MergePlan

/-- **Where handles go**: the plan is settled before anything is appended, and yet it renames
every handle to the first entry of the merged arenas that is the same. -/
theorem renamesInto (strategy : MergeStrategy) (base other : Cache) :
    RenamesInto (base.merge strategy other) other (MergePlan.of base other).schemaName
      (MergePlan.of base other).variantName := by
  constructor
  case variant =>
    intro i hi
    have hmem : other.variants[i].fullName ∈ variantKeys base other :=
      key_mem_variantKeys (List.getElem_mem hi)
    refine ⟨_, variantName_natCast hi, ?_⟩
    rw [Cache.variantKeys_eq strategy] at hmem ⊢
    exact firstAt_idxOf hmem
  -- Handles that point at nothing are left alone.
  case noVariant =>
    intro h hout
    exact HandleMap.apply_placement_of_notIn _ _ (by rwa [List.length_map])
  case schema =>
    intro i hi
    have hmem : incomingShape base other other.schemas[i] ∈ schemaKeys base other :=
      key_mem_schemaKeys (List.getElem_mem hi)
    refine ⟨_, schemaName_natCast hi, ?_⟩
    rw [Cache.schemaKeys_eq strategy] at hmem ⊢
    -- A stored schema has the key of the incoming one exactly if the two match.
    simp only [Schema.matches_iff_shape_eq]
    exact firstAt_idxOf hmem
  case noSchema =>
    intro h hout
    exact HandleMap.apply_placement_of_notIn _ _ (by rwa [List.length_map])

end MergePlan

/-! ## §3 The merged arenas -/

namespace Cache

/-- The incoming schemas that match no schema of the base and no earlier incoming one, where the
variants of incoming schemas are renamed. -/
def freshSchemas (base other : Cache) (variantName : Handle → Handle) : List Schema :=
  fresh (fun s => ∃ b ∈ base.schemas, b.Matches id variantName s)
    (fun t s => t.Matches variantName variantName s) other.schemas

/-- The incoming variants whose short name no variant of the base and no earlier incoming one
has. -/
def freshVariants (base other : Cache) : List Variant :=
  fresh (fun v => ∃ b ∈ base.variants, b.fullName = v.fullName)
    (fun w v => w.fullName = v.fullName) other.variants

variable (base other : Cache)

theorem addedSchemas_eq_fresh :
    (MergePlan.of base other).addedSchemas =
      base.freshSchemas other (MergePlan.of base other).variantName := by
  have hknown : ∀ s : Schema,
      (∃ b ∈ base.schemas, b.Matches id (MergePlan.of base other).variantName s) ↔
        MergePlan.incomingShape base other s ∈ base.schemas.map (Schema.shape id) := by
    intro s
    rw [List.mem_map]
    exact exists_congr fun b => and_congr_right fun _ => Schema.matches_iff_shape_eq
  exact newcomers_eq_fresh hknown (fun s t => Schema.matches_iff_shape_eq) _

theorem addedVariants_eq_fresh :
    (MergePlan.of base other).addedVariants = base.freshVariants other := by
  have hknown : ∀ v : Variant, (∃ b ∈ base.variants, b.fullName = v.fullName) ↔
      v.fullName ∈ base.variants.map (·.fullName) := fun v => List.mem_map.symm
  exact newcomers_eq_fresh hknown (fun v w => Iff.rfl) _

/-- **Reconciliation**: for handles renamed to the first entry of the merged arenas that is the
same, merging keeps the arenas of the base and appends the fresh incoming entries in order,
renamed at every depth; the incoming definitions are renamed alike.  Every incoming schema is
counted, as added or as a duplicate. -/
theorem merge_reconciles (strategy : MergeStrategy) (base other : Cache) :
    let merged := base.merge strategy other
    let report := base.mergeReport strategy other
    ∃ schemaName variantName : Handle → Handle,
      RenamesInto merged other schemaName variantName ∧
      merged.schemas = base.schemas ++
        (base.freshSchemas other variantName).map (Schema.relabel schemaName variantName) ∧
      merged.variants = base.variants ++
        (base.freshVariants other).map (Variant.relabel schemaName variantName) ∧
      merged.definitions = mergeDefinitions strategy base.definitions
        (other.definitions.map (Definition.relabel schemaName variantName)) ∧
      report.schemasAdded = (base.freshSchemas other variantName).length ∧
      report.schemasAdded + report.schemasDeduplicated = other.schemas.length := by
  intro merged report
  have hadded : report.schemasAdded = (MergePlan.of base other).addedSchemas.length := rfl
  have hduplicates : report.schemasDeduplicated =
      other.schemas.length - (MergePlan.of base other).addedSchemas.length := rfl
  -- Both counts are about the incoming schemas, of which the fresh ones are a part.
  have hle : (MergePlan.of base other).addedSchemas.length ≤ other.schemas.length := by
    rw [addedSchemas_eq_fresh]
    exact length_fresh_le _
  refine ⟨_, _, MergePlan.renamesInto strategy base other, ?_, ?_, rfl, ?_, ?_⟩
  · rw [← addedSchemas_eq_fresh]
    exact merge_schemas strategy
  · rw [← addedVariants_eq_fresh]
    exact merge_variants strategy
  · rw [← addedSchemas_eq_fresh]
    exact hadded
  · rw [hadded, hduplicates]
    exact Nat.add_sub_cancel' hle

end Cache

end SchemaGraph
