import SchemaGraph.Proofs.Extraction.Coherence
import SchemaGraph.Proofs.Extraction.Making

/-!
# Requests of a Pass

Fields make requests, and requests resolve fields.  Up to a bound on how deep they nest, requests
keep the registry coherent and answer with good handles by induction on that bound; the step is
that fields hand on nothing but what their requests answered.

- `Pass.Answers`: a way to make requests that keeps coherence and answers well
- `Pass.Made.extracted`, `Pass.Spelled.extracted`: fields made with it are good ones
- `Pass.answers_request`: so is the way a pass makes requests
- `Pass.AllowsRequests.supports`: requests keep every regime that allows their single steps
-/

namespace SchemaGraph

/-- The regime allows a step of the registry, whatever the notes. -/
def Regime.AllowsStep (g : Regime (Registry × List String)) (step : Registry → Registry) : Prop :=
  ∀ r notes, g.Inv (r, notes) → g.Inv (step r, notes) ∧ g.Le (r, notes) (step r, notes)

namespace Pass

variable {p : Pass} {low : State}

/-! ## §1 Good answers -/

/-- What a request may answer: a schema or none, and a variant, or none for an undeclared type. -/
def Answered (p : Pass) : Request → Handle → State → Prop
  | .schema _, h, s => IsHandleIn s.1.schemas.length h
  | .variant fullName, h, s =>
    match p.module.lookup? fullName with
    | some _ => 0 ≤ h ∧ h < s.1.variants.length
    | none => h = noHandle

/-- The registry of the module stays coherent and its arenas grow. -/
abbrev keeping (p : Pass) : Regime State := Registry.regime p.module (List String)

/-- Requests keep the registry coherent, and their answers are good. -/
def Answers (p : Pass) (ask : Request → Run Handle) : Prop :=
  ∀ (q : Request) (low : State), Keeps p.keeping low (ask q) (p.Answered q)

/-! ## §2 Fields -/

section Leaves

variable {sizes : ArenaSizes} {name declaredType : String}

/-- A field without a payload. -/
theorem extracted_plain {kind : FieldKind} {h : Handle} (henum : kind ≠ .enumerated)
    (hlist : kind ≠ .polymorphicList) (hh : IsHandleIn sizes.schemas h) :
    ({ Field.ofKind kind name declaredType with schemaId := h } : Field).Extracted sizes where
  schema := hh
  variants := by simp [Field.ofKind]
  payload := by constructor <;> simp [Field.ofKind, henum, hlist]
  leaf := rfl

theorem extracted_scalar : (Field.scalar name declaredType).Extracted sizes :=
  extracted_plain (by decide) (by decide) (.inl rfl)

theorem extracted_external : (Field.external name declaredType).Extracted sizes :=
  extracted_plain (by decide) (by decide) (.inl rfl)

theorem extracted_nested {h : Handle} (hh : IsHandleIn sizes.schemas h) :
    (Field.nested name declaredType h).Extracted sizes :=
  extracted_plain (by decide) (by decide) hh

theorem extracted_list {h : Handle} (hh : IsHandleIn sizes.schemas h) :
    (Field.list name declaredType h).Extracted sizes :=
  extracted_plain (by decide) (by decide) hh

theorem extracted_enumerated {values : List String} :
    (Field.enumerated name declaredType values).Extracted sizes where
  schema := .inl rfl
  variants := by simp [Field.enumerated, Field.ofKind]
  payload := by constructor <;> simp [Field.enumerated, Field.ofKind]
  leaf := rfl

theorem extracted_polymorphicList {h : Handle} {ids : List Handle}
    (hh : IsHandleIn sizes.schemas h) (hids : ∀ v ∈ ids, 0 ≤ v ∧ v < sizes.variants) :
    (Field.polymorphicList name declaredType h ids).Extracted sizes where
  schema := hh
  variants := hids
  payload := by constructor <;> simp [Field.polymorphicList, Field.ofKind]
  leaf := rfl

/-- The localization marks are not handles. -/
theorem extracted_withLocalization {f : Field} (hf : f.Extracted sizes) (a b : Bool) :
    (f.withLocalization a b).Extracted sizes :=
  ⟨hf.schema, hf.variants, ⟨hf.payload.enumValues, hf.payload.variantIds⟩, hf.leaf⟩

end Leaves

/-! ## §3 Good fields -/

section Fields

variable {ask : Request → Run Handle} {s : State} {m : Member} {f : Field}

/-- Good answers stay good while the arenas grow. -/
theorem supports_of_answers (hask : p.Answers ask) : Supports p.keeping p.Answered ask where
  notes := fun r _ _ _ hr => ⟨hr, .refl r.sizes⟩
  mono := by
    intro q h s s' hle hh
    cases q with
    -- The arenas grow, so a place in them remains one.
    | schema fullName => exact IsHandleIn.mono hh hle.schemas
    | variant fullName =>
      cases hlookup : p.module.lookup? fullName with
      | none =>
        simp only [Answered, hlookup] at hh ⊢
        exact hh
      | some t =>
        simp only [Answered, hlookup] at hh ⊢
        exact ⟨hh.1, Int.lt_of_lt_of_le hh.2 (Int.ofNat_le.2 hle.variants)⟩
  answers := hask

theorem IsItemSchema.isHandleIn {itemType : String} {h : Handle}
    (hh : p.IsItemSchema (p.Answered · · s) itemType h) : IsHandleIn s.1.schemas.length h := by
  unfold IsItemSchema at hh
  split at hh
  · exact .inl hh
  · exact hh

/-- Every candidate is declared, so each of them is answered with a variant. -/
theorem variants_of_candidates {itemType : String} {ids : List Handle}
    (hids : List.Forall₂ (fun t h => p.Answered (.variant t) h s) (p.variantCandidates itemType)
      ids) : ∀ h ∈ ids, 0 ≤ h ∧ h < s.1.variants.length := by
  intro h hh
  obtain ⟨t, ht, hanswer⟩ := exists_mem_of_forall₂ hids hh
  have hcandidate : p.isVariantCandidate t = true := (List.mem_filter.1 ht).2
  -- A candidate is declared, and then its answer is a place.
  unfold isVariantCandidate at hcandidate
  cases hlookup : p.module.lookup? t with
  | none => simp [hlookup] at hcandidate
  | some info =>
    simp only [Answered, hlookup] at hanswer
    exact hanswer

/-- A field that is made of good answers is an extracted one. -/
theorem Made.extracted (hf : p.Made (p.Answered · · s) m f) : f.Extracted s.1.sizes := by
  -- Whatever the kind of the field, its handles are the answers.
  cases hf with
  | deepList item htype => exact extracted_withLocalization (extracted_list (.inl rfl)) _ _
  | list itemType h htype hpoly hh =>
    exact extracted_withLocalization (extracted_list hh.isHandleIn) _ _
  | polymorphicList itemType h ids htype hpoly hh hids =>
    exact extracted_withLocalization
      (extracted_polymorphicList hh.isHandleIn (variants_of_candidates hids)) _ _
  | scalar typeName htype hscalar => exact extracted_withLocalization extracted_scalar _ _
  | enumerated typeName t htype hscalar hlookup henum =>
    exact extracted_withLocalization extracted_enumerated _ _
  | nested typeName h htype hscalar hnestable hh =>
    have hin : IsHandleIn s.1.schemas.length h := hh
    exact extracted_withLocalization (extracted_nested hin) _ _
  | external typeName htype hscalar hlookup hbanned =>
    exact extracted_withLocalization extracted_external _ _

theorem Spelled.extracted {fullName : String} {fields : List Field}
    (hfields : p.Spelled (p.Answered · · s) fullName fields) :
    Registry.FieldsExtracted fields s := by
  obtain ⟨members, -, hmade⟩ := hfields
  intro f hf
  obtain ⟨m, -, hm⟩ := exists_mem_of_forall₂ hmade hf
  exact hm.extracted

end Fields

/-! ## §4 The knot -/

/-- A type that needs a schema is declared. -/
theorem names_of_needsSchema {fullName : String} (h : p.needsSchema fullName = true) :
    p.module.Names fullName := by
  unfold needsSchema at h
  cases hlookup : p.module.lookup? fullName with
  | none => simp [hlookup] at h
  | some t => exact (Module.names_of_lookup? hlookup).1

/-- **Requests**: however deep they may nest, they keep the registry coherent and answer well.
Resolvers make requests that nest less deep, so the induction is on the bound. -/
theorem answers_request (p : Pass) (depth : Nat) : p.Answers (p.request depth) := by
  induction depth with
  | zero =>
    intro q low
    cases q with
    | schema fullName => exact Keeps.throw _
    | variant fullName => exact Keeps.throw _
  | succ depth ih =>
    have hresolve : ∀ (fullName : String) (low : State),
        Keeps p.keeping low (p.flattenWith (p.request depth) fullName) Registry.FieldsExtracted :=
      fun fullName low => ((supports_of_answers ih).keeps_flattenWith p fullName low).weaken
        fun _ _ => Spelled.extracted
    intro q low
    cases q with
    | schema fullName =>
      exact Registry.keeps_requestSchema names_of_needsSchema (hresolve fullName) low
    | variant fullName =>
      unfold request
      cases hlookup : p.module.lookup? fullName with
      | none =>
        -- An undeclared type has no variant, and the registry is not asked.
        apply Keeps.pure
        intro s _ _
        simp only [Answered, hlookup]
      | some t =>
        -- The place of a variant has the short name of a declaration.
        have hname : p.module.Names t.name := (Module.names_of_lookup? hlookup).2
        refine Keeps.weaken (Registry.keeps_requestVariant hname (hresolve fullName) low) ?_
        intro h s hh
        simp only [Answered, hlookup]
        exact hh

/-! ## §5 Other regimes -/

/-- The regime allows each step that a request may take: notes, places, fields and failures. -/
structure AllowsRequests (p : Pass) (g : Regime State) : Prop where
  notes : g.AllowsNotes
  reserveSchema : ∀ fullName, g.AllowsStep (·.reserveSchema fullName)
  fillSchema : ∀ i fields, g.AllowsStep (·.fillSchema i fields)
  recordFailure : ∀ fullName e, g.AllowsStep (·.recordFailure fullName e)
  reserveVariant : ∀ fullName t special, p.module.lookup? fullName = some t →
    g.AllowsStep (·.reserveVariant fullName t.name special)
  fillVariant : ∀ i fields, g.AllowsStep (·.fillVariant i fields)

section Steps

variable {g : Regime State} {fullName : String} {resolve : Run (List Field)}

theorem AllowsRequests.keeps_requestSchema (h : p.AllowsRequests g)
    (hresolve : ∀ low, Keeps g low resolve fun _ _ => True) (needsSchema : String → Bool)
    (low : State) :
    Keeps g low (Registry.requestSchema needsSchema fullName resolve) fun _ _ => True := by
  rintro ⟨r, notes⟩ hinv -
  -- The steps follow each other: taking the place, running the resolver, filling or recording.
  have hreserved := h.reserveSchema fullName r notes hinv
  obtain ⟨hinside, hle, -⟩ :=
    hresolve _ (r.reserveSchema fullName, notes) hreserved.1 (g.refl _)
  have houtcome := Registry.requestSchema_outcome needsSchema fullName resolve r notes
  generalize Registry.requestSchema needsSchema fullName resolve (r, notes) = result at houtcome ⊢
  cases houtcome with
  | failed e => exact ⟨hinv, g.refl _, fun _ _ => trivial⟩
  | known handle hknown => exact ⟨hinv, g.refl _, fun _ _ => trivial⟩
  | notNeeded hneeds => exact ⟨hinv, g.refl _, fun _ _ => trivial⟩
  | built fields r' notes' _ _ _ hrun =>
    rw [hrun] at hinside hle
    obtain ⟨hfilled, hle'⟩ := h.fillSchema r.schemas.length fields r' notes' hinside
    exact ⟨hfilled, g.trans hreserved.2 (g.trans hle hle'), fun _ _ => trivial⟩
  | broken e r' notes' _ _ _ hrun =>
    rw [hrun] at hinside hle
    obtain ⟨hrecorded, hle'⟩ := h.recordFailure fullName e r' notes' hinside
    exact ⟨hrecorded, g.trans hreserved.2 (g.trans hle hle'), fun _ _ => trivial⟩

theorem AllowsRequests.keeps_requestVariant (h : p.AllowsRequests g) {t : TypeInfo}
    (hlookup : p.module.lookup? fullName = some t) (special : Bool)
    (hresolve : ∀ low, Keeps g low resolve fun _ _ => True) (low : State) :
    Keeps g low (Registry.requestVariant fullName t.name special resolve) fun _ _ => True := by
  rintro ⟨r, notes⟩ hinv -
  -- As for a schema, but that no failure is recorded.
  have hreserved := h.reserveVariant fullName t special hlookup r notes hinv
  obtain ⟨hinside, hle, -⟩ :=
    hresolve _ (r.reserveVariant fullName t.name special, notes) hreserved.1 (g.refl _)
  have houtcome := Registry.requestVariant_outcome fullName t.name special resolve r notes
  generalize Registry.requestVariant fullName t.name special resolve (r, notes) = result
    at houtcome ⊢
  cases houtcome with
  | known handle hknown => exact ⟨hinv, g.refl _, fun _ _ => trivial⟩
  | built fields r' notes' _ hrun =>
    rw [hrun] at hinside hle
    obtain ⟨hfilled, hle'⟩ := h.fillVariant r.variants.length fields r' notes' hinside
    exact ⟨hfilled, g.trans hreserved.2 (g.trans hle hle'), fun _ _ => trivial⟩
  | absorbed e r' notes' _ hrun =>
    -- The failure is absorbed, and the place stays as it was taken.
    rw [hrun] at hinside hle
    exact ⟨hinside, g.trans hreserved.2 hle, fun _ _ => trivial⟩

theorem supports_of_keeps (hnotes : g.AllowsNotes) {ask : Request → Run Handle}
    (hask : ∀ x low, Keeps g low (ask x) fun _ _ => True) :
    Supports g (fun _ _ _ => True) ask where
  notes := hnotes
  mono := fun _ _ _ _ _ _ => trivial
  answers := hask

/-- **Single steps suffice**: requests keep every regime that allows each of their steps, however
deep they may nest. -/
theorem AllowsRequests.supports (h : p.AllowsRequests g) (depth : Nat) :
    Supports g (fun _ _ _ => True) (p.request depth) := by
  apply supports_of_keeps h.notes
  induction depth with
  | zero =>
    intro x low
    cases x with
    | schema fullName => exact Keeps.throw _
    | variant fullName => exact Keeps.throw _
  | succ depth ih =>
    -- Resolvers flatten a type, and all that they request nests less deep.
    have hresolve : ∀ fullName low,
        Keeps g low (p.flattenWith (p.request depth) fullName) fun _ _ => True :=
      fun fullName low => ((supports_of_keeps h.notes ih).keeps_flattenWith p fullName low).weaken
        fun _ _ _ => trivial
    intro x low
    cases x with
    | schema fullName => exact h.keeps_requestSchema (hresolve fullName) p.needsSchema low
    | variant fullName =>
      unfold request
      cases hlookup : p.module.lookup? fullName with
      | none => exact Keeps.pure fun _ _ _ => trivial
      | some t => exact h.keeps_requestVariant hlookup _ (hresolve fullName) low

end Steps

end Pass

end SchemaGraph
