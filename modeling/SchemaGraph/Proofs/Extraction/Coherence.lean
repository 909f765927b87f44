import SchemaGraph.Extraction.Registry
import SchemaGraph.Proofs.Extraction.Runs
import SchemaGraph.Proofs.Module.Lookup
import SchemaGraph.Proofs.Validation

/-!
# Coherent Registries

While fields are resolved the registry holds entries under construction, and resolvers may fail
with half of their work done.  At every moment in between the registry is *coherent*: every field
it holds points into its arenas and has the payload of its kind, and every name is one that the
module declares.  A place that is taken and not filled has no fields, so it does no harm.

- `Registry.Coherent`: the invariant
- `Registry.keeps_requestSchema`, `Registry.keeps_requestVariant`: a request keeps it, whatever
  its resolver does within it, and answers with a handle into the arenas
-/

namespace SchemaGraph

/-! ## §1 Extracted fields -/

/-- No handle, or a position in an arena of the size. -/
def IsHandleIn (size : Nat) (h : Handle) : Prop := h = noHandle ∨ 0 ≤ h ∧ h < size

theorem IsHandleIn.mono {size size' : Nat} {h : Handle} (hin : IsHandleIn size h)
    (hle : size ≤ size') : IsHandleIn size' h := by
  rcases hin with rfl | ⟨hnonneg, hlt⟩
  · exact .inl rfl
  · exact .inr ⟨hnonneg, Int.lt_of_lt_of_le hlt (Int.ofNat_le.2 hle)⟩

theorem isHandleIn_natCast {size i : Nat} (hi : i < size) : IsHandleIn size (i : Int) :=
  .inr ⟨Int.natCast_nonneg i, Int.ofNat_lt.2 hi⟩

theorem IsHandleIn.lt {size : Nat} {h : Handle} (hin : IsHandleIn size h) : h < size := by
  rcases hin with rfl | ⟨_, hlt⟩
  · exact Int.lt_of_lt_of_le (by decide : noHandle < 0) (Int.natCast_nonneg size)
  · exact hlt

/-- A field as extraction makes it: its schema is missing or in the arena, its variants are in
the arena, its payload is the one of its kind, and no structure is attached to it. -/
structure Field.Extracted (sizes : ArenaSizes) (f : Field) : Prop where
  schema : IsHandleIn sizes.schemas f.schemaId
  variants : ∀ v ∈ f.variantIds.getD [], 0 ≤ v ∧ v < sizes.variants
  payload : f.PayloadFits
  leaf : f.children = none

namespace Field.Extracted

variable {sizes sizes' : ArenaSizes} {f : Field}

theorem mono (h : f.Extracted sizes) (hle : sizes.Le sizes') : f.Extracted sizes' where
  schema := h.schema.mono hle.schemas
  variants := fun v hv => ⟨(h.variants v hv).1,
    Int.lt_of_lt_of_le (h.variants v hv).2 (Int.ofNat_le.2 hle.variants)⟩
  payload := h.payload
  leaf := h.leaf

/-- There is nothing below an extracted field, so it fits at every depth. -/
theorem everywhere (h : f.Extracted sizes) : f.Everywhere (Field.Fits sizes) :=
  Field.everywhere_of_leaf h.leaf ⟨⟨h.schema.lt, h.variants⟩, h.payload⟩

end Field.Extracted

/-! ## §2 The invariant -/

namespace Registry

/-- The sizes of the two arenas. -/
def sizes (r : Registry) : ArenaSizes := ⟨r.schemas.length, r.variants.length⟩

/-- Fields point into the arenas and carry their payloads, and names are declared. -/
structure Coherent (m : Module) (r : Registry) : Prop where
  schemaFields : ∀ s ∈ r.schemas, ∀ f ∈ s.fields, f.Extracted r.sizes
  variantFields : ∀ v ∈ r.variants, ∀ f ∈ v.fields, f.Extracted r.sizes
  variantSchemas : ∀ v ∈ r.variants, IsHandleIn r.schemas.length v.schemaId
  schemaNames : ∀ s ∈ r.schemas, m.Names s.fullName
  variantNames : ∀ v ∈ r.variants, m.Names v.fullName

variable {m : Module} {r : Registry}

theorem coherent_empty (m : Module) : Coherent m {} where
  schemaFields := by simp
  variantFields := by simp
  variantSchemas := by simp
  schemaNames := by simp
  variantNames := by simp

theorem isHandleIn_of_schemaHandle? {fullName : String} {h : Handle}
    (hh : r.schemaHandle? fullName = some h) : IsHandleIn r.schemas.length h := by
  unfold schemaHandle? at hh
  split at hh
  · cases hh
  · obtain ⟨i, hi, rfl⟩ := Option.map_eq_some_iff.1 hh
    obtain ⟨hlt, -⟩ := List.findIdx?_eq_some_iff_getElem.1 hi
    exact isHandleIn_natCast hlt

theorem variantHandle?_lt {shortName : String} {h : Handle}
    (hh : r.variantHandle? shortName = some h) : 0 ≤ h ∧ h < r.variants.length := by
  obtain ⟨i, hi, rfl⟩ := Option.map_eq_some_iff.1 hh
  obtain ⟨hlt, -⟩ := List.findIdx?_eq_some_iff_getElem.1 hi
  exact ⟨Int.natCast_nonneg i, Int.ofNat_lt.2 hlt⟩

/-! ## §3 One step -/

theorem sizes_le_reserveSchema (r : Registry) (fullName : String) :
    r.sizes.Le (r.reserveSchema fullName).sizes := by
  refine ⟨?_, Nat.le_refl _⟩
  show r.schemas.length ≤ (r.schemas ++ [_]).length
  rw [List.length_append]
  exact Nat.le_add_right _ _

theorem sizes_le_reserveVariant (r : Registry) (fullName shortName : String) (special : Bool) :
    r.sizes.Le (r.reserveVariant fullName shortName special).sizes := by
  refine ⟨Nat.le_refl _, ?_⟩
  show r.variants.length ≤ (r.variants ++ [_]).length
  rw [List.length_append]
  exact Nat.le_add_right _ _

theorem length_lt_reserveSchema (r : Registry) (fullName : String) :
    r.schemas.length < (r.reserveSchema fullName).sizes.schemas := by
  simp [sizes, reserveSchema]

theorem length_lt_reserveVariant (r : Registry) (fullName shortName : String) (special : Bool) :
    r.variants.length < (r.reserveVariant fullName shortName special).sizes.variants := by
  simp [sizes, reserveVariant]

/-- A new schema has no fields yet. -/
theorem Coherent.reserveSchema (hr : r.Coherent m) {fullName : String}
    (hname : m.Names fullName) : (r.reserveSchema fullName).Coherent m := by
  have hle := sizes_le_reserveSchema r fullName
  refine ⟨?_, fun v hv f hf => (hr.variantFields v hv f hf).mono hle,
    fun v hv => (hr.variantSchemas v hv).mono hle.schemas, ?_, hr.variantNames⟩
  -- The fields of the old schemas fit the larger arenas, too, and the new schema has none.
  · intro s hs f hf
    rcases List.mem_append.1 hs with hs | hs
    · exact (hr.schemaFields s hs f hf).mono hle
    · obtain rfl := List.mem_singleton.1 hs
      cases hf
  · intro s hs
    rcases List.mem_append.1 hs with hs | hs
    · exact hr.schemaNames s hs
    · obtain rfl := List.mem_singleton.1 hs
      exact hname

/-- A new variant has no fields yet, and the schema of its type, if there is one. -/
theorem Coherent.reserveVariant (hr : r.Coherent m) (fullName : String) {shortName : String}
    (hname : m.Names shortName) (special : Bool) :
    (r.reserveVariant fullName shortName special).Coherent m := by
  have hle := sizes_le_reserveVariant r fullName shortName special
  refine ⟨fun s hs f hf => (hr.schemaFields s hs f hf).mono hle, ?_, ?_, hr.schemaNames, ?_⟩
  -- As for schemas: the new variant has no fields that might not fit.
  · intro v hv f hf
    rcases List.mem_append.1 hv with hv | hv
    · exact (hr.variantFields v hv f hf).mono hle
    · obtain rfl := List.mem_singleton.1 hv
      cases hf
  · intro v hv
    rcases List.mem_append.1 hv with hv | hv
    · exact hr.variantSchemas v hv
    · -- The new variant has the schema of its type, if that is known by name.
      obtain rfl := List.mem_singleton.1 hv
      show IsHandleIn r.schemas.length ((r.schemaHandle? fullName).getD noHandle)
      cases hh : r.schemaHandle? fullName with
      | none => exact .inl rfl
      | some h => exact isHandleIn_of_schemaHandle? hh
  · intro v hv
    rcases List.mem_append.1 hv with hv | hv
    · exact hr.variantNames v hv
    · obtain rfl := List.mem_singleton.1 hv
      exact hname

theorem mem_modify {α : Type} {update : α → α} {xs : List α} {i : Nat} {x : α}
    (h : x ∈ xs.modify i update) : x ∈ xs ∨ ∃ y ∈ xs, x = update y := by
  obtain ⟨j, hj, rfl⟩ := List.getElem_of_mem h
  rw [List.length_modify] at hj
  rw [List.getElem_modify]
  split
  · exact .inr ⟨_, List.getElem_mem hj, rfl⟩
  · exact .inl (List.getElem_mem hj)

theorem sizes_fillSchema (r : Registry) (position : Nat) (fields : List Field) :
    (r.fillSchema position fields).sizes = r.sizes := by
  simp [sizes, fillSchema]

theorem sizes_fillVariant (r : Registry) (position : Nat) (fields : List Field) :
    (r.fillVariant position fields).sizes = r.sizes := by
  simp [sizes, fillVariant]

/-- Filling a schema brings in fields that fit the arenas as they are by now. -/
theorem Coherent.fillSchema (hr : r.Coherent m) (position : Nat) {fields : List Field}
    (hfields : ∀ f ∈ fields, f.Extracted r.sizes) : (r.fillSchema position fields).Coherent m := by
  -- Fields are replaced at a place that is there already, so the sizes stay what they are.
  have hsizes := sizes_fillSchema r position fields
  have hlength : (r.fillSchema position fields).schemas.length = r.schemas.length :=
    List.length_modify ..
  refine ⟨?_, hsizes ▸ hr.variantFields, hlength ▸ hr.variantSchemas, ?_, hr.variantNames⟩
  · intro s hs f hf
    rw [hsizes]
    rcases mem_modify hs with hs | ⟨t, _, rfl⟩
    · exact hr.schemaFields s hs f hf
    · exact hfields f hf
  · intro s hs
    rcases mem_modify hs with hs | ⟨t, ht, rfl⟩
    · exact hr.schemaNames s hs
    · exact hr.schemaNames t ht

theorem Coherent.fillVariant (hr : r.Coherent m) (position : Nat) {fields : List Field}
    (hfields : ∀ f ∈ fields, f.Extracted r.sizes) :
    (r.fillVariant position fields).Coherent m := by
  -- No place is added, so what the other fields point to stays in the arenas.
  have hsizes := sizes_fillVariant r position fields
  refine ⟨hsizes ▸ hr.schemaFields, ?_, ?_, hr.schemaNames, ?_⟩
  · intro v hv f hf
    rw [hsizes]
    rcases mem_modify hv with hv | ⟨w, _, rfl⟩
    · exact hr.variantFields v hv f hf
    · exact hfields f hf
  · intro v hv
    rcases mem_modify hv with hv | ⟨w, hw, rfl⟩
    · exact hr.variantSchemas v hv
    · exact hr.variantSchemas w hw
  · intro v hv
    rcases mem_modify hv with hv | ⟨w, hw, rfl⟩
    · exact hr.variantNames v hv
    · exact hr.variantNames w hw

/-- A recorded failure changes no arena. -/
theorem Coherent.recordFailure (hr : r.Coherent m) (fullName : String) (e : IntrospectionError) :
    (r.recordFailure fullName e).Coherent m :=
  ⟨hr.schemaFields, hr.variantFields, hr.variantSchemas, hr.schemaNames, hr.variantNames⟩

/-! ## §4 What a request does -/

variable {ν : Type}

/-- The ways a request for a schema can go, with its answer and the state it leaves. -/
inductive SchemaOutcome (needsSchema : String → Bool) (fullName : String)
    (resolve : Build ν (List Field)) (r : Registry) (notes : ν) :
    Except IntrospectionError Handle × Registry × ν → Prop where
  | failed (e : IntrospectionError) (hfailed : r.failure? fullName = some e) :
    SchemaOutcome needsSchema fullName resolve r notes (.error e, r, notes)
  | known (h : Handle) (hknown : r.schemaHandle? fullName = some h) :
    SchemaOutcome needsSchema fullName resolve r notes (.ok h, r, notes)
  | notNeeded (hneeds : needsSchema fullName = false) :
    SchemaOutcome needsSchema fullName resolve r notes (.ok noHandle, r, notes)
  | built (fields : List Field) (r' : Registry) (notes' : ν)
      (hfailed : r.failure? fullName = none) (hnew : r.schemaHandle? fullName = none)
      (hneeds : needsSchema fullName = true)
      (hrun : resolve (r.reserveSchema fullName, notes) = (.ok fields, r', notes')) :
    SchemaOutcome needsSchema fullName resolve r notes
      (.ok r.schemas.length, r'.fillSchema r.schemas.length fields, notes')
  | broken (e : IntrospectionError) (r' : Registry) (notes' : ν)
      (hfailed : r.failure? fullName = none) (hnew : r.schemaHandle? fullName = none)
      (hneeds : needsSchema fullName = true)
      (hrun : resolve (r.reserveSchema fullName, notes) = (.error e, r', notes')) :
    SchemaOutcome needsSchema fullName resolve r notes
      (.error e, r'.recordFailure fullName e, notes')

theorem requestSchema_outcome (needsSchema : String → Bool) (fullName : String)
    (resolve : Build ν (List Field)) (r : Registry) (notes : ν) :
    SchemaOutcome needsSchema fullName resolve r notes
      (requestSchema needsSchema fullName resolve (r, notes)) := by
  unfold requestSchema
  -- The cases come in the order in which the request is checked: an earlier failure, a place that
  -- is known, and a type that needs none.
  cases hfailed : r.failure? fullName with
  | some e => simpa [hfailed] using .failed e hfailed
  | none =>
    cases hnew : r.schemaHandle? fullName with
    | some h => simpa [hfailed, hnew] using .known h hnew
    | none =>
      cases hneeds : needsSchema fullName with
      | false => simpa [hfailed, hnew, hneeds] using .notNeeded hneeds
      | true =>
        rcases hrun : resolve (r.reserveSchema fullName, notes) with ⟨answer, r', notes'⟩
        cases answer with
        | error e =>
          simpa [hfailed, hnew, hneeds, hrun] using .broken e r' notes' hfailed hnew hneeds hrun
        | ok fields =>
          simpa [hfailed, hnew, hneeds, hrun] using .built fields r' notes' hfailed hnew hneeds hrun

/-- The ways a request for a variant can go; it never fails itself. -/
inductive VariantOutcome (fullName shortName : String) (special : Bool)
    (resolve : Build ν (List Field)) (r : Registry) (notes : ν) :
    Except IntrospectionError Handle × Registry × ν → Prop where
  | known (h : Handle) (hknown : r.variantHandle? shortName = some h) :
    VariantOutcome fullName shortName special resolve r notes (.ok h, r, notes)
  | built (fields : List Field) (r' : Registry) (notes' : ν)
      (hnew : r.variantHandle? shortName = none)
      (hrun : resolve (r.reserveVariant fullName shortName special, notes) =
        (.ok fields, r', notes')) :
    VariantOutcome fullName shortName special resolve r notes
      (.ok r.variants.length, r'.fillVariant r.variants.length fields, notes')
  | absorbed (e : IntrospectionError) (r' : Registry) (notes' : ν)
      (hnew : r.variantHandle? shortName = none)
      (hrun : resolve (r.reserveVariant fullName shortName special, notes) =
        (.error e, r', notes')) :
    VariantOutcome fullName shortName special resolve r notes
      (.ok r.variants.length, r', notes')

theorem requestVariant_outcome (fullName shortName : String) (special : Bool)
    (resolve : Build ν (List Field)) (r : Registry) (notes : ν) :
    VariantOutcome fullName shortName special resolve r notes
      (requestVariant fullName shortName special resolve (r, notes)) := by
  unfold requestVariant
  cases hnew : r.variantHandle? shortName with
  | some h => simpa [hnew] using .known h hnew
  | none =>
    -- Only now the resolver runs, and it finds the place of the variant taken.
    rcases hrun : resolve (r.reserveVariant fullName shortName special, notes) with
      ⟨answer, r', notes'⟩
    cases answer with
    | error e => simpa [hnew, hrun] using .absorbed e r' notes' hnew hrun
    | ok fields => simpa [hnew, hrun] using .built fields r' notes' hnew hrun

/-! ## §5 Requests keep coherence -/

/-- The registry stays coherent and its arenas grow, whatever the notes. -/
def regime (m : Module) (ν : Type) : Regime (Registry × ν) where
  Inv := fun s => s.1.Coherent m
  Le := fun s s' => s.1.sizes.Le s'.1.sizes
  refl := fun s => .refl s.1.sizes
  trans := fun hab hbc => hab.trans hbc

/-- The answer is a list of extracted fields. -/
def FieldsExtracted (fields : List Field) (s : Registry × ν) : Prop :=
  ∀ f ∈ fields, f.Extracted s.1.sizes

/-- **Requesting a schema**: the resolver meets the registry with the place taken and may leave it
with more entries; a failure is recorded and changes no arena. -/
theorem keeps_requestSchema {needsSchema : String → Bool} {fullName : String}
    {resolve : Build ν (List Field)} (hnames : needsSchema fullName = true → m.Names fullName)
    (hresolve : ∀ low, Keeps (regime m ν) low resolve FieldsExtracted) (low : Registry × ν) :
    Keeps (regime m ν) low (requestSchema needsSchema fullName resolve)
      fun h s => IsHandleIn s.1.schemas.length h := by
  rintro ⟨r, notes⟩ hinv _
  have hr : r.Coherent m := hinv
  have hreserved := sizes_le_reserveSchema r fullName
  -- The resolver starts with the place of the new schema taken already.
  have hinside := hresolve (r, notes) (r.reserveSchema fullName, notes)
  have houtcome := requestSchema_outcome needsSchema fullName resolve r notes
  generalize requestSchema needsSchema fullName resolve (r, notes) = result at houtcome ⊢
  cases houtcome with
  | failed e =>
    refine ⟨hr, .refl r.sizes, fun h hh => ?_⟩
    cases hh
  | known h hknown =>
    refine ⟨hr, .refl r.sizes, fun h' hh => ?_⟩
    cases hh
    exact isHandleIn_of_schemaHandle? hknown
  | notNeeded =>
    refine ⟨hr, .refl r.sizes, fun h hh => ?_⟩
    cases hh
    exact .inl rfl
  | built fields r' notes' _ _ hneeds hrun =>
    -- The fields fit the registry that the resolver left, and filling the place keeps its sizes.
    obtain ⟨hr', hle', hfields⟩ := hinside (hr.reserveSchema (hnames hneeds)) hreserved
    rw [hrun] at hr' hle' hfields
    have hsizes := sizes_fillSchema r' r.schemas.length fields
    have hlt : r.schemas.length < r'.schemas.length :=
      Nat.lt_of_lt_of_le (length_lt_reserveSchema r fullName) hle'.schemas
    refine ⟨Coherent.fillSchema hr' _ (hfields fields rfl), ?_, fun h hh => ?_⟩
    · show r.sizes.Le (r'.fillSchema r.schemas.length fields).sizes
      rw [hsizes]
      exact hreserved.trans hle'
    · cases hh
      show IsHandleIn (r'.fillSchema r.schemas.length fields).sizes.schemas _
      rw [hsizes]
      exact isHandleIn_natCast hlt
  | broken e r' notes' _ _ hneeds hrun =>
    -- What the resolver did before it failed stays, and the place stays without fields.
    obtain ⟨hr', hle', -⟩ := hinside (hr.reserveSchema (hnames hneeds)) hreserved
    rw [hrun] at hr' hle'
    refine ⟨Coherent.recordFailure hr' fullName e, hreserved.trans hle', fun h hh => ?_⟩
    cases hh

/-- **Requesting a variant**: as for a schema, but a failure of the resolver leaves the variant
without fields, and the answer is always a place in the arena. -/
theorem keeps_requestVariant {fullName shortName : String} {special : Bool}
    {resolve : Build ν (List Field)} (hname : m.Names shortName)
    (hresolve : ∀ low, Keeps (regime m ν) low resolve FieldsExtracted) (low : Registry × ν) :
    Keeps (regime m ν) low (requestVariant fullName shortName special resolve)
      fun h s => 0 ≤ h ∧ h < s.1.variants.length := by
  rintro ⟨r, notes⟩ hinv _
  have hr : r.Coherent m := hinv
  have hreserved := sizes_le_reserveVariant r fullName shortName special
  obtain ⟨hr', hle', hfields⟩ := hresolve (r, notes)
    (r.reserveVariant fullName shortName special, notes)
    (hr.reserveVariant fullName hname special) hreserved
  have hplace := length_lt_reserveVariant r fullName shortName special
  have houtcome := requestVariant_outcome fullName shortName special resolve r notes
  generalize requestVariant fullName shortName special resolve (r, notes) = result at houtcome ⊢
  cases houtcome with
  | known h hknown =>
    refine ⟨hr, .refl r.sizes, fun h' hh => ?_⟩
    cases hh
    exact variantHandle?_lt hknown
  | built fields r' notes' _ hrun =>
    rw [hrun] at hr' hle' hfields
    have hsizes := sizes_fillVariant r' r.variants.length fields
    have hlt : r.variants.length < r'.variants.length :=
      Nat.lt_of_lt_of_le hplace hle'.variants
    -- Filling changes no size, so what holds of the registry that the resolver left goes on to
    -- hold.
    refine ⟨Coherent.fillVariant hr' _ (hfields fields rfl), ?_, fun h hh => ?_⟩
    · show r.sizes.Le (r'.fillVariant r.variants.length fields).sizes
      rw [hsizes]
      exact hreserved.trans hle'
    · cases hh
      show _ ∧ _ < ((r'.fillVariant r.variants.length fields).sizes.variants : Int)
      rw [hsizes]
      exact ⟨Int.natCast_nonneg _, Int.ofNat_lt.2 hlt⟩
  | absorbed e r' notes' _ hrun =>
    -- The place was taken before the resolver ran, so the handle is good without any fields.
    rw [hrun] at hr' hle'
    have hlt : r.variants.length < r'.variants.length :=
      Nat.lt_of_lt_of_le hplace hle'.variants
    refine ⟨hr', hreserved.trans hle', fun h hh => ?_⟩
    cases hh
    exact ⟨Int.natCast_nonneg _, Int.ofNat_lt.2 hlt⟩

end Registry

end SchemaGraph
