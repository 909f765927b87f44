import SchemaGraph.Merge.Shape

/-!
# Trees of Fields

A field with the structure attached to it is a tree.  This module has induction over such trees,
the predicate that a property holds at every depth, and the laws of shapes and relabelling:

- `Field.inductionOn`: a property that passes from the children to the field holds of every field
- `Field.Everywhere P`: `P` holds of the field and of everything below it
- `Field.relabel_relabel`, `Field.shape_relabel`, `Field.shape_shape`: renaming twice is renaming
  by the composite, and shapes see through both
- `Field.relabel_congr`, `Field.shape_congr`: only the handles that a tree carries count
-/

namespace SchemaGraph

namespace Field

/-! ## §1 Induction over the tree -/

/-- The fields right below a field; a missing structure has none. -/
def childList (f : Field) : List Field := f.children.getD []

theorem childList_none {f : Field} (h : f.children = none) : f.childList = [] := by
  simp [childList, h]

theorem mem_childList_of_inline {f c : Field} {cs : List Field}
    (h : f.inlineChildren? = some cs) (hc : c ∈ cs) : c ∈ f.childList := by
  unfold inlineChildren? at h
  unfold childList
  cases hchildren : f.children with
  | none => simp [hchildren] at h
  | some ds => cases ds <;> simp_all

private theorem sizeOf_lt_of_mem_childList {f c : Field} (h : c ∈ f.childList) :
    sizeOf c < sizeOf f := by
  obtain ⟨name, declaredType, kind, enumValues, variantIds, schemaId, children, hint, l, m⟩ := f
  cases children with
  | none => simp [childList] at h
  | some cs =>
    have hlt : sizeOf c < sizeOf cs := List.sizeOf_lt_of_mem h
    simp only [mk.sizeOf_spec, Option.some.sizeOf_spec]
    omega

/-- **Induction over field trees**: what passes from the children of a field to the field
itself holds of every field. -/
@[elab_as_elim]
theorem inductionOn {motive : Field → Prop} (f : Field)
    (node : ∀ f : Field, (∀ c ∈ f.childList, motive c) → motive f) : motive f :=
  node f fun c _ => inductionOn c node
termination_by sizeOf f
decreasing_by exact sizeOf_lt_of_mem_childList ‹_›

/-! ## §2 Properties at every depth -/

/-- The property holds of the field and of every field below it. -/
inductive Everywhere (P : Field → Prop) : Field → Prop where
  | node (f : Field) (here : P f) (below : ∀ c ∈ f.childList, Everywhere P c) : Everywhere P f

variable {P Q : Field → Prop} {f : Field}

theorem everywhere_iff : f.Everywhere P ↔ P f ∧ ∀ c ∈ f.childList, c.Everywhere P := by
  constructor
  · intro h
    cases h with
    | node _ here below => exact ⟨here, below⟩
  · intro h
    exact .node f h.1 h.2

theorem Everywhere.here (h : f.Everywhere P) : P f := (everywhere_iff.1 h).1

theorem Everywhere.child (h : f.Everywhere P) {c : Field} (hc : c ∈ f.childList) :
    c.Everywhere P := (everywhere_iff.1 h).2 c hc

theorem Everywhere.mono (h : f.Everywhere P) (hPQ : ∀ g, P g → Q g) : f.Everywhere Q := by
  induction h with
  | node f here _ ih => exact .node f (hPQ f here) ih

theorem everywhere_and :
    f.Everywhere (fun g => P g ∧ Q g) ↔ f.Everywhere P ∧ f.Everywhere Q := by
  constructor
  · intro h
    exact ⟨h.mono fun _ hg => hg.1, h.mono fun _ hg => hg.2⟩
  · rintro ⟨hP, hQ⟩
    induction hP with
    | node f here _ ih =>
      exact .node f ⟨here, hQ.here⟩ fun c hc => ih c hc (hQ.child hc)

/-- A field without a structure of its own has nothing below it. -/
theorem everywhere_of_leaf (h : f.children = none) (hf : P f) : f.Everywhere P :=
  .node f hf (by simp [childList_none h])

/-! ## §3 Relabelling -/

/-- Relabelling one level: the handles of the field, then its children. -/
theorem relabel_eq (σ ρ : Handle → Handle) (f : Field) :
    f.relabel σ ρ =
      { f with
        variantIds := f.variantIds.map (·.map ρ)
        schemaId := σ f.schemaId
        children := f.children.map (·.map (relabel σ ρ)) } := by
  obtain ⟨name, declaredType, kind, enumValues, variantIds, schemaId, children, hint, l, m⟩ := f
  cases children with
  | none => simp only [relabel, Option.map_none]
  | some cs => simp only [relabel, relabelAll_eq_map, Option.map_some]

section Relabel

variable (σ ρ : Handle → Handle) (f : Field)

@[simp] theorem relabel_name : (f.relabel σ ρ).name = f.name := by simp [relabel_eq]

@[simp] theorem relabel_declaredType : (f.relabel σ ρ).declaredType = f.declaredType := by
  simp [relabel_eq]

@[simp] theorem relabel_kind : (f.relabel σ ρ).kind = f.kind := by simp [relabel_eq]

@[simp] theorem relabel_enumValues : (f.relabel σ ρ).enumValues = f.enumValues := by
  simp [relabel_eq]

@[simp] theorem relabel_variantIds :
    (f.relabel σ ρ).variantIds = f.variantIds.map (·.map ρ) := by simp [relabel_eq]

@[simp] theorem relabel_schemaId : (f.relabel σ ρ).schemaId = σ f.schemaId := by
  simp [relabel_eq]

@[simp] theorem relabel_children :
    (f.relabel σ ρ).children = f.children.map (·.map (relabel σ ρ)) := by simp [relabel_eq]

@[simp] theorem childList_relabel :
    (f.relabel σ ρ).childList = f.childList.map (relabel σ ρ) := by
  cases h : f.children <;> simp [childList, h]

end Relabel

/-- **Relabelling twice** is relabelling by the composite maps. -/
theorem relabel_relabel (σ ρ σ' ρ' : Handle → Handle) (f : Field) :
    (f.relabel σ ρ).relabel σ' ρ' = f.relabel (σ' ∘ σ) (ρ' ∘ ρ) := by
  induction f using inductionOn with
  | node f ih =>
    -- The children are relabelled alike by induction, the handles of the field by definition.
    have hbelow : f.childList.map (relabel σ' ρ' ∘ relabel σ ρ)
        = f.childList.map (relabel (σ' ∘ σ) (ρ' ∘ ρ)) := List.map_congr_left ih
    rw [relabel_eq _ _ (relabel σ ρ f), relabel_eq σ ρ f, relabel_eq _ _ f]
    cases h : f.children <;> simp_all [childList, Option.map_map, Function.comp_def]

/-- Maps that agree on the handles of an optional list give one list. -/
theorem map_handles_congr {β : Type} {ρ ρ' : Handle → β} {ids : Option (List Handle)}
    (h : ∀ v ∈ ids.getD [], ρ v = ρ' v) : ids.map (·.map ρ) = ids.map (·.map ρ') := by
  cases ids with
  | none => rfl
  | some ids => exact congrArg some (List.map_congr_left h)

/-- Two pairs of maps that agree on the handles a tree carries relabel it alike. -/
theorem relabel_congr {σ σ' ρ ρ' : Handle → Handle}
    (h : f.Everywhere fun g =>
      σ g.schemaId = σ' g.schemaId ∧ ∀ v ∈ g.variantIds.getD [], ρ v = ρ' v) :
    f.relabel σ ρ = f.relabel σ' ρ' := by
  induction h with
  | node f here _ ih =>
    have hbelow : f.childList.map (relabel σ ρ) = f.childList.map (relabel σ' ρ') :=
      List.map_congr_left ih
    have hids : f.variantIds.map (·.map ρ) = f.variantIds.map (·.map ρ') :=
      map_handles_congr here.2
    rw [relabel_eq σ ρ, relabel_eq σ' ρ', hids, here.1]
    cases hc : f.children <;> simp_all [childList]

/-- A property of relabelled fields holds everywhere in the relabelled tree when it follows
from a property that holds everywhere in the tree. -/
theorem Everywhere.relabel {σ ρ : Handle → Handle} (h : f.Everywhere P)
    (hPQ : ∀ g, P g → Q (g.relabel σ ρ)) : (f.relabel σ ρ).Everywhere Q := by
  induction h with
  | node f here _ ih =>
    refine .node _ (hPQ f here) ?_
    intro c hc
    rw [childList_relabel] at hc
    obtain ⟨d, hd, rfl⟩ := List.mem_map.1 hc
    exact ih d hd

/-! ## §4 Shapes -/

/-- The shape of one level: the renamed variants, and the shapes of the children. -/
theorem shape_eq (ρ : Handle → Handle) (f : Field) :
    f.shape ρ =
      { f with
        variantIds := f.variantIds.map (·.map ρ)
        schemaId := noHandle
        children := some (f.childList.map (shape ρ))
        hasLocalizationHandle := false
        mustLocalize := false } := by
  obtain ⟨name, declaredType, kind, enumValues, variantIds, schemaId, children, hint, l, m⟩ := f
  cases children with
  | none => simp [shape, childList]
  | some cs => simp [shape, shapes_eq_map, childList]

/-- The shape of a relabelled field: renaming variants for the shape follows the relabelling. -/
theorem shape_relabel (σ ρ τ : Handle → Handle) (f : Field) :
    (f.relabel σ ρ).shape τ = f.shape (τ ∘ ρ) := by
  induction f using inductionOn with
  | node f ih =>
    have hbelow : f.childList.map (shape τ ∘ Field.relabel σ ρ) = f.childList.map (shape (τ ∘ ρ)) :=
      List.map_congr_left ih
    rw [shape_eq τ, shape_eq (τ ∘ ρ), childList_relabel, List.map_map, hbelow]
    simp [relabel_eq, Option.map_map, Function.comp_def]

/-- The shape of a shape. -/
theorem shape_shape (ρ τ : Handle → Handle) (f : Field) :
    (f.shape ρ).shape τ = f.shape (τ ∘ ρ) := by
  induction f using inductionOn with
  | node f ih =>
    have hbelow : f.childList.map (shape τ ∘ shape ρ) = f.childList.map (shape (τ ∘ ρ)) :=
      List.map_congr_left ih
    have hchildren : (f.shape ρ).childList = f.childList.map (shape ρ) := by
      rw [shape_eq]; rfl
    rw [shape_eq τ, hchildren, List.map_map, hbelow, shape_eq ρ, shape_eq (τ ∘ ρ)]
    simp [Option.map_map, Function.comp_def]

/-- Two renamings that agree on the variants a tree carries give it one shape. -/
theorem shape_congr {ρ ρ' : Handle → Handle}
    (h : f.Everywhere fun g => ∀ v ∈ g.variantIds.getD [], ρ v = ρ' v) :
    f.shape ρ = f.shape ρ' := by
  induction h with
  | node f here _ ih =>
    have hbelow : f.childList.map (shape ρ) = f.childList.map (shape ρ') :=
      List.map_congr_left ih
    have hids : f.variantIds.map (·.map ρ) = f.variantIds.map (·.map ρ') :=
      map_handles_congr here
    rw [shape_eq ρ, shape_eq ρ', hids, hbelow]

/-! ## §5 Lists of fields -/

theorem relabelAll_relabelAll (σ ρ σ' ρ' : Handle → Handle) (fs : List Field) :
    relabelAll σ' ρ' (relabelAll σ ρ fs) = relabelAll (σ' ∘ σ) (ρ' ∘ ρ) fs := by
  simp only [relabelAll_eq_map, List.map_map]
  exact List.map_congr_left fun f _ => relabel_relabel σ ρ σ' ρ' f

theorem shapes_relabelAll (σ ρ τ : Handle → Handle) (fs : List Field) :
    shapes τ (relabelAll σ ρ fs) = shapes (τ ∘ ρ) fs := by
  simp only [relabelAll_eq_map, shapes_eq_map, List.map_map]
  exact List.map_congr_left fun f _ => shape_relabel σ ρ τ f

theorem shapes_shapes (ρ τ : Handle → Handle) (fs : List Field) :
    shapes τ (shapes ρ fs) = shapes (τ ∘ ρ) fs := by
  simp only [shapes_eq_map, List.map_map]
  exact List.map_congr_left fun f _ => shape_shape ρ τ f

end Field

/-! ## §6 Records -/

theorem Schema.shape_relabel (σ ρ τ : Handle → Handle) (s : Schema) :
    (s.relabel σ ρ).shape τ = s.shape (τ ∘ ρ) := by
  simp only [Schema.shape, Schema.relabel, Field.shapes_relabelAll]

theorem Schema.shape_shape (ρ τ : Handle → Handle) (s : Schema) :
    (s.shape ρ).shape τ = s.shape (τ ∘ ρ) := by
  simp only [Schema.shape, Field.shapes_shapes]

theorem Schema.relabel_relabel (σ ρ σ' ρ' : Handle → Handle) (s : Schema) :
    (s.relabel σ ρ).relabel σ' ρ' = s.relabel (σ' ∘ σ) (ρ' ∘ ρ) := by
  simp only [Schema.relabel, Field.relabelAll_relabelAll]

theorem Variant.relabel_relabel (σ ρ σ' ρ' : Handle → Handle) (v : Variant) :
    (v.relabel σ ρ).relabel σ' ρ' = v.relabel (σ' ∘ σ) (ρ' ∘ ρ) := by
  simp only [Variant.relabel, Field.relabelAll_relabelAll, Function.comp_apply]

theorem Definition.relabel_relabel (σ ρ σ' ρ' : Handle → Handle) (d : Definition) :
    (d.relabel σ ρ).relabel σ' ρ' = d.relabel (σ' ∘ σ) (ρ' ∘ ρ) := by
  simp only [Definition.relabel, Field.relabelAll_relabelAll]

@[simp] theorem Schema.relabel_fullName (σ ρ : Handle → Handle) (s : Schema) :
    (s.relabel σ ρ).fullName = s.fullName := rfl

@[simp] theorem Variant.relabel_fullName (σ ρ : Handle → Handle) (v : Variant) :
    (v.relabel σ ρ).fullName = v.fullName := rfl

@[simp] theorem Variant.relabel_schemaId (σ ρ : Handle → Handle) (v : Variant) :
    (v.relabel σ ρ).schemaId = σ v.schemaId := rfl

@[simp] theorem Schema.relabel_fields (σ ρ : Handle → Handle) (s : Schema) :
    (s.relabel σ ρ).fields = s.fields.map (Field.relabel σ ρ) := Field.relabelAll_eq_map ..

@[simp] theorem Variant.relabel_fields (σ ρ : Handle → Handle) (v : Variant) :
    (v.relabel σ ρ).fields = v.fields.map (Field.relabel σ ρ) := Field.relabelAll_eq_map ..

@[simp] theorem Definition.relabel_fields (σ ρ : Handle → Handle) (d : Definition) :
    (d.relabel σ ρ).fields = d.fields.map (Field.relabel σ ρ) := Field.relabelAll_eq_map ..

end SchemaGraph
