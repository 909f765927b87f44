import SchemaGraph.Model.Cache

/-!
# Shapes

Two schemas of one name are the same schema when their fields agree in everything but the
positions of their schemas and the localization marks.  The *shape* of a field keeps what has to
agree and erases the rest, so matching is equality of shapes.  Variant handles are compared after
renaming them to the handles of the arena they are merged into.
-/

namespace SchemaGraph

namespace Field

/-! ## §1 Shapes of fields -/

mutual

/-- The field with variant handles renamed and with everything erased that matching ignores; a
missing structure counts as an empty one. -/
def shape (rename : Handle → Handle) : Field → Field
  | ⟨name, declaredType, kind, enumValues, variantIds, _, children, hint, _, _⟩ =>
    { name
      declaredType
      kind
      enumValues
      variantIds := variantIds.map (·.map rename)
      schemaId := noHandle
      children :=
        match children with
        | none => some []
        | some children => some (shapes rename children)
      hint
      hasLocalizationHandle := false
      mustLocalize := false }

/-- The shapes of a list of fields. -/
def shapes (rename : Handle → Handle) : List Field → List Field
  | [] => []
  | f :: fs => shape rename f :: shapes rename fs

end

/-- Shapes are taken field by field. -/
theorem shapes_eq_map (rename : Handle → Handle) (fs : List Field) :
    shapes rename fs = fs.map (shape rename) := by
  induction fs with
  | nil => rfl
  | cons f fs ih => rw [shapes, ih, List.map_cons]

/-! ## §2 Renaming handles -/

mutual

/-- The field with every schema handle and every variant handle renamed, at any depth. -/
def relabel (schemaName variantName : Handle → Handle) : Field → Field
  | ⟨name, declaredType, kind, enumValues, variantIds, schemaId, children, hint,
      hasLocalizationHandle, mustLocalize⟩ =>
    { name
      declaredType
      kind
      enumValues
      -- Only handles change; everything else is copied.
      variantIds := variantIds.map (·.map variantName)
      schemaId := schemaName schemaId
      children :=
        match children with
        | none => none
        | some children => some (relabelAll schemaName variantName children)
      hint
      hasLocalizationHandle
      mustLocalize }

/-- `relabel` on every field of a list. -/
def relabelAll (schemaName variantName : Handle → Handle) : List Field → List Field
  | [] => []
  | f :: fs => relabel schemaName variantName f :: relabelAll schemaName variantName fs

end

/-- Handles are renamed field by field. -/
theorem relabelAll_eq_map (schemaName variantName : Handle → Handle) (fs : List Field) :
    relabelAll schemaName variantName fs = fs.map (relabel schemaName variantName) := by
  induction fs with
  | nil => rfl
  | cons f fs ih => rw [relabelAll, ih, List.map_cons]

end Field

/-! ## §3 Shapes and handles of records -/

namespace Schema

/-- What a schema is recognized by: its name and the shapes of its fields. -/
def shape (rename : Handle → Handle) (s : Schema) : Schema :=
  ⟨s.fullName, Field.shapes rename s.fields⟩

/-- The schema with the handles of its fields renamed. -/
def relabel (schemaName variantName : Handle → Handle) (s : Schema) : Schema :=
  { s with fields := Field.relabelAll schemaName variantName s.fields }

end Schema

namespace Variant

/-- The variant with its handle and those of its fields renamed. -/
def relabel (schemaName variantName : Handle → Handle) (v : Variant) : Variant :=
  { v with
    schemaId := schemaName v.schemaId
    fields := Field.relabelAll schemaName variantName v.fields }

end Variant

namespace Definition

/-- The definition with the handles of its fields renamed. -/
def relabel (schemaName variantName : Handle → Handle) (d : Definition) : Definition :=
  { d with fields := Field.relabelAll schemaName variantName d.fields }

end Definition

end SchemaGraph
