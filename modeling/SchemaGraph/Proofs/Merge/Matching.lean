import Mathlib.Data.List.Forall2
import SchemaGraph.Proofs.Model.FieldTree

/-!
# Matching

Two schemas match when they have one name and their fields agree one by one: in what describes
the member, in the variants after a renaming on either side, and in the structures below, where a
missing structure counts as an empty one.  Matching is a relation that descends into both trees
at once; a merge decides it by comparing shapes.

- `Field.matches_iff_shape_eq`, `Schema.matches_iff_shape_eq`: shapes decide matching
- `Schema.nodup_map_shape_iff`: lists in which no two schemas match
-/

namespace SchemaGraph

variable {ρ ρ' : Handle → Handle}

/-! ## §1 Fields -/

namespace Field

/-- The fields agree level by level, the variants of the first renamed by `ρ` and those of the
second by `ρ'`.  Schema handles and localization marks do not count. -/
inductive Matches (ρ ρ' : Handle → Handle) : Field → Field → Prop where
  | node {f g : Field}
      (name : f.name = g.name)
      (declaredType : f.declaredType = g.declaredType)
      (kind : f.kind = g.kind)
      (hint : f.hint = g.hint)
      (enumValues : f.enumValues = g.enumValues)
      (variants : f.variantIds.map (·.map ρ) = g.variantIds.map (·.map ρ'))
      (below : List.Forall₂ (Matches ρ ρ') f.childList g.childList) : Matches ρ ρ' f g

/-- Where single fields are decided by their shapes, lists of fields are, too. -/
theorem forall₂_matches_iff {fs gs : List Field}
    (h : ∀ f ∈ fs, ∀ g, f.Matches ρ ρ' g ↔ f.shape ρ = g.shape ρ') :
    List.Forall₂ (Matches ρ ρ') fs gs ↔ fs.map (shape ρ) = gs.map (shape ρ') := by
  induction fs generalizing gs with
  | nil => cases gs <;> simp
  | cons f fs ih =>
    have hf : ∀ g, f.Matches ρ ρ' g ↔ f.shape ρ = g.shape ρ' := h f List.mem_cons_self
    have hfs : ∀ gs, List.Forall₂ (Matches ρ ρ') fs gs ↔ fs.map (shape ρ) = gs.map (shape ρ') :=
      fun gs => ih fun g hg => h g (List.mem_cons_of_mem _ hg)
    cases gs with
    | nil => simp
    | cons g gs => rw [List.forall₂_cons, hf, hfs, List.map_cons, List.map_cons, List.cons.injEq]

/-- **Shapes decide matching**: fields match exactly if their shapes are equal. -/
theorem matches_iff_shape_eq {f g : Field} :
    f.Matches ρ ρ' g ↔ f.shape ρ = g.shape ρ' := by
  induction f using inductionOn generalizing g with
  | node f ih =>
    -- The lists below the two fields match by induction exactly if their shapes agree.
    have hbelow : List.Forall₂ (Matches ρ ρ') f.childList g.childList ↔
        f.childList.map (shape ρ) = g.childList.map (shape ρ') :=
      forall₂_matches_iff fun c hc d => ih c hc
    rw [shape_eq, shape_eq, mk.injEq]
    constructor
    · rintro ⟨hname, htype, hkind, hhint, henum, hvariants, hchildren⟩
      exact ⟨hname, htype, hkind, henum, hvariants, rfl, congrArg some (hbelow.1 hchildren),
        hhint, rfl, rfl⟩
    · rintro ⟨hname, htype, hkind, henum, hvariants, -, hchildren, hhint, -, -⟩
      exact .node hname htype hkind hhint henum hvariants
        (hbelow.2 (Option.some.inj hchildren))

theorem forall₂_matches_iff_shapes_eq {fs gs : List Field} :
    List.Forall₂ (Matches ρ ρ') fs gs ↔ shapes ρ fs = shapes ρ' gs := by
  rw [shapes_eq_map, shapes_eq_map]
  exact forall₂_matches_iff fun f _ g => matches_iff_shape_eq

end Field

/-! ## §2 Schemas -/

namespace Schema

/-- The schemas have one name, and their fields match in order. -/
structure Matches (ρ ρ' : Handle → Handle) (s t : Schema) : Prop where
  fullName : s.fullName = t.fullName
  fields : List.Forall₂ (Field.Matches ρ ρ') s.fields t.fields

variable {s t : Schema}

theorem matches_iff_shape_eq : s.Matches ρ ρ' t ↔ s.shape ρ = t.shape ρ' := by
  rw [shape, shape, mk.injEq, ← Field.forall₂_matches_iff_shapes_eq]
  exact ⟨fun h => ⟨h.fullName, h.fields⟩, fun h => ⟨h.1, h.2⟩⟩

instance : Decidable (s.Matches ρ ρ' t) := decidable_of_iff _ matches_iff_shape_eq.symm

/-- No two schemas of a list match exactly if no shape occurs twice. -/
theorem nodup_map_shape_iff {schemas : List Schema} :
    (schemas.map (shape ρ)).Nodup ↔ schemas.Pairwise fun s t => ¬ s.Matches ρ ρ t := by
  simp only [List.Nodup, List.pairwise_map, ne_eq, matches_iff_shape_eq]

end Schema

end SchemaGraph
