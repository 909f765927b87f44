import Mathlib.Data.List.Nodup
import SchemaGraph.Proofs.Merge.NormalForm
import SchemaGraph.Proofs.Merge.Reconciliation
import SchemaGraph.Proofs.Model.Arena

/-!
# What a Merge Does to Variants

Variants are recognized by short name alone: an incoming variant stands for the first variant of
its name, and what it says about its fields is dropped if the base has one.  The report counts the
incoming variants that are dropped although their fields differ.  This module ties the counters to
the record that each incoming handle points at after the merge.

- `Cache.variant?_variantName`: the record behind the new handle of an incoming variant
- `Cache.collides_iff`: an incoming variant is counted exactly if it differs from that record
- `Cache.merge_reconciles_variants`: the variants of a merged cache and their report
-/

namespace SchemaGraph

/-! ## §1 Fields of variants -/

namespace Variant

variable {σ ρ ρ' : Handle → Handle} {v w : Variant}

/-- The fields match in order; the names of the variants do not count. -/
def FieldsMatch (ρ ρ' : Handle → Handle) (v w : Variant) : Prop :=
  List.Forall₂ (Field.Matches ρ ρ') v.fields w.fields

theorem fieldsMatch_iff_shapes_eq :
    v.FieldsMatch ρ ρ' w ↔ Field.shapes ρ v.fields = Field.shapes ρ' w.fields :=
  Field.forall₂_matches_iff_shapes_eq

instance : Decidable (v.FieldsMatch ρ ρ' w) := decidable_of_iff _ fieldsMatch_iff_shapes_eq.symm

/-- A copy has the fields of its original. -/
theorem fieldsMatch_relabel : (v.relabel σ ρ).FieldsMatch id ρ v := by
  rw [fieldsMatch_iff_shapes_eq, relabel, Field.shapes_relabelAll]
  rfl

end Variant

/-! ## §2 Records behind handles -/

/-- What a search finds stands at the first position with the property. -/
theorem FirstAt.find?_eq {α : Type} {P : α → Prop} [DecidablePred P] {xs : List α} {k : Nat}
    (h : FirstAt P xs k) : xs.find? (fun x => P x) = xs[k]? := by
  rw [List.getElem?_eq_getElem h.lt, List.find?_eq_some_iff_getElem]
  refine ⟨decide_eq_true h.holds, k, h.lt, rfl, fun j hj => ?_⟩
  simpa using h.first j (Nat.lt_trans hj h.lt) hj

namespace Cache

variable {base other : Cache}

/-- **The record behind a handle**: the new handle of an incoming variant points at the first
merged variant of its short name. -/
theorem variant?_variantName (strategy : MergeStrategy) {i : Nat} (hi : i < other.variants.length) :
    (base.merge strategy other).variant? ((MergePlan.of base other).variantName i) =
      (base.merge strategy other).variants.find?
        fun v => v.fullName = other.variants[i].fullName := by
  obtain ⟨k, hk, hfirst⟩ := (MergePlan.renamesInto strategy base other).variant i hi
  rw [hk, variant?, entryAt?_natCast, hfirst.find?_eq]

/-- It is found in the base, or else among the copies of the fresh variants. -/
theorem find?_variants_merge (strategy : MergeStrategy) (name : String) :
    (base.merge strategy other).variants.find? (fun v => v.fullName = name) =
      (base.variants.find? fun v => v.fullName = name).or
        (((base.freshVariants other).find? fun v => v.fullName = name).map
          (Variant.relabel (MergePlan.of base other).schemaName
            (MergePlan.of base other).variantName)) := by
  rw [merge_variants, addedVariants_eq_fresh, List.find?_append, List.find?_map]
  rfl

theorem mem_of_mem_freshVariants {v : Variant} (h : v ∈ base.freshVariants other) :
    v ∈ other.variants := by
  rw [← addedVariants_eq_fresh] at h
  exact mem_of_mem_newcomers h

/-- **What is counted**: where no short name comes twice, a variant collides exactly if its
fields differ from those of the record that its handle points at after the merge. -/
theorem collides_iff (strategy : MergeStrategy)
    (hnodup : (other.variants.map (·.fullName)).Nodup) {i : Nat}
    (hi : i < other.variants.length) :
    collides base.variants (MergePlan.of base other) other.variants[i] = true ↔
      ∃ w ∈ (base.merge strategy other).variant? ((MergePlan.of base other).variantName i),
        ¬ w.FieldsMatch id (MergePlan.of base other).variantName other.variants[i] := by
  rw [variant?_variantName strategy hi, find?_variants_merge, collides]
  cases hbase : base.variants.find? (fun b => b.fullName = other.variants[i].fullName) with
  | some b =>
    -- The record is that of the base, with which the incoming one is compared.
    simp [Variant.fieldsMatch_iff_shapes_eq]
  | none =>
    refine iff_of_false (by simp) ?_
    rintro ⟨w, hw, hdiffers⟩
    -- The record is the copy of a fresh variant of the same name, which is this one.
    rw [Option.none_or, Option.mem_def, Option.map_eq_some_iff] at hw
    obtain ⟨u, hu, rfl⟩ := hw
    have hmem : u ∈ other.variants := mem_of_mem_freshVariants (List.mem_of_find?_eq_some hu)
    have hname : u.fullName = other.variants[i].fullName := by simpa using List.find?_some hu
    obtain rfl : u = other.variants[i] :=
      List.inj_on_of_nodup_map hnodup hmem (List.getElem_mem hi) hname
    exact hdiffers Variant.fieldsMatch_relabel

/-! ## §3 The report -/

/-- An incoming variant is known if the base has its short name. -/
theorem known_eq_decide (v : Variant) :
    (base.variants.any fun b => b.fullName = v.fullName) =
      decide (v.fullName ∈ base.variants.map (·.fullName)) := by
  rw [Bool.eq_iff_iff]
  simp

/-- Where no short name comes twice, every incoming variant is either new or known. -/
theorem variantsAdded_add_variantsReused (strategy : MergeStrategy)
    (hnodup : (other.variants.map (·.fullName)).Nodup) :
    (base.mergeReport strategy other).variantsAdded +
      (base.mergeReport strategy other).variantsReused = other.variants.length := by
  -- Without repetition no incoming variant hides another one, and the new ones are those that
  -- the other counter leaves out.
  have hadded : (MergePlan.of base other).addedVariants = other.variants.filter fun v =>
      !base.variants.any fun b => b.fullName = v.fullName := by
    rw [MergePlan.addedVariants_eq, newcomers_eq_filter hnodup]
    exact List.filter_congr fun v _ => by rw [known_eq_decide, decide_not]
  show (MergePlan.of base other).addedVariants.length + (other.variants.filter _).length = _
  rw [hadded, Nat.add_comm, ← List.length_eq_length_filter_add]

/-- Only known variants collide. -/
theorem known_of_collides {v : Variant} {plan : MergePlan}
    (h : collides base.variants plan v = true) :
    (base.variants.any fun b => b.fullName = v.fullName) = true := by
  unfold collides at h
  split at h
  case h_1 b hb =>
    have hname : b.fullName = v.fullName := by simpa using List.find?_some hb
    exact List.any_eq_true.2 ⟨b, List.mem_of_find?_eq_some hb, decide_eq_true hname⟩
  case h_2 => cases h

/-- The counter runs over all incoming variants, whether known or not. -/
theorem variantCollisions_eq_length (strategy : MergeStrategy) :
    (base.mergeReport strategy other).variantCollisions =
      (other.variants.filter (collides base.variants (MergePlan.of base other))).length := by
  show ((other.variants.filter _).filter _).length = _
  rw [List.filter_filter]
  refine congrArg List.length (List.filter_congr fun v _ => ?_)
  rw [Bool.and_eq_left_iff_imp]
  exact known_of_collides

/-- **The count of collisions**: where no short name comes twice, those incoming variants are
counted whose fields differ from those of the record that their handle points at afterwards. -/
theorem variantCollisions_eq (strategy : MergeStrategy)
    (hnodup : (other.variants.map (·.fullName)).Nodup) :
    (base.mergeReport strategy other).variantCollisions =
      (other.variants.zipIdx.filter fun (p : Variant × Nat) =>
        ∃ w ∈ (base.merge strategy other).variant? ((MergePlan.of base other).variantName p.2),
          ¬ w.FieldsMatch id (MergePlan.of base other).variantName p.1).length := by
  -- A handle belongs to a place, so the incoming variants are counted by their places.
  conv_lhs => rw [variantCollisions_eq_length, ← List.zipIdx_map_fst 0 other.variants,
    List.filter_map, List.length_map]
  refine congrArg List.length (List.filter_congr fun p hp => ?_)
  obtain ⟨-, hlt, hvalue⟩ := List.mem_zipIdx hp
  rw [Nat.zero_add] at hlt
  have hp1 : p.1 = other.variants[p.2] := by simpa using hvalue
  rw [Bool.eq_iff_iff, decide_eq_true_iff, Function.comp_apply, hp1]
  exact collides_iff strategy hnodup hlt

/-! ## §4 Reconciliation of variants -/

/-- **Reconciliation of variants**: for handles renamed to the first merged variant of the same
short name, merging keeps the variants of the base and appends the fresh incoming ones in order,
renamed; everything else that comes in is renamed alike.  No short name is repeated that the base
does not repeat.  Where the incoming short names are distinct, as those of every extraction and
every merge are, each incoming variant is counted once, as added or as reused, and those are
counted as collisions whose fields differ from the record that now stands for them. -/
theorem merge_reconciles_variants (strategy : MergeStrategy) (base other : Cache) :
    let merged := base.merge strategy other
    let report := base.mergeReport strategy other
    ∃ schemaName variantName : Handle → Handle,
      RenamesInto merged other schemaName variantName ∧
      merged.variants = base.variants ++
        (base.freshVariants other).map (Variant.relabel schemaName variantName) ∧
      merged.schemas = base.schemas ++
        (base.freshSchemas other variantName).map (Schema.relabel schemaName variantName) ∧
      merged.definitions = mergeDefinitions strategy base.definitions
        (other.definitions.map (Definition.relabel schemaName variantName)) ∧
      ((base.variants.map (·.fullName)).Nodup → (merged.variants.map (·.fullName)).Nodup) ∧
      report.variantsAdded = (base.freshVariants other).length ∧
      ((other.variants.map (·.fullName)).Nodup →
        report.variantsAdded + report.variantsReused = other.variants.length ∧
        report.variantCollisions =
          (other.variants.zipIdx.filter fun (p : Variant × Nat) =>
            ∃ w ∈ merged.variant? (variantName p.2),
              ¬ w.FieldsMatch id variantName p.1).length) := by
  intro merged report
  refine ⟨_, _, MergePlan.renamesInto strategy base other, ?_, ?_, rfl, ?_, ?_, ?_⟩
  · rw [← addedVariants_eq_fresh]
    exact merge_variants strategy
  · rw [← addedSchemas_eq_fresh]
    exact merge_schemas strategy
  · rw [← variantKeys_eq]
    exact (nodup_keysWith_iff _ _).2
  · rw [← addedVariants_eq_fresh]
    rfl
  · exact fun hnodup =>
      ⟨variantsAdded_add_variantsReused strategy hnodup, variantCollisions_eq strategy hnodup⟩

theorem merge_reconciles_variants_gadgets :
    let base := lampCache.merge .append patchCache
    let merged := base.merge .overwrite gadgetCache
    (base.variants.map (·.fullName)).Nodup ∧ (gadgetCache.variants.map (·.fullName)).Nodup ∧
      (merged.variants.map (·.fullName)).Nodup ∧
      ∃ variantName : Handle → Handle,
        (gadgetCache.variants.zipIdx.filter fun (p : Variant × Nat) =>
          ∃ w ∈ merged.variant? (variantName p.2),
            ¬ w.FieldsMatch id variantName p.1).length = 1 := by
  intro base merged
  have hbase : (base.variants.map (·.fullName)).Nodup := by decide
  have hother : (gadgetCache.variants.map (·.fullName)).Nodup := by decide
  -- One gadget differs from the variant that now stands for it.
  have hcollisions : (base.mergeReport .overwrite gadgetCache).variantCollisions = 1 := by decide
  obtain ⟨-, ρ, -, -, -, -, hnodup, -, hcount⟩ :=
    merge_reconciles_variants .overwrite base gadgetCache
  exact ⟨hbase, hother, hnodup hbase, ρ, (hcount hother).2.symm.trans hcollisions⟩

end Cache

end SchemaGraph
