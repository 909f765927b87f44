import SchemaGraph.Proofs.Extraction.Names
import SchemaGraph.Proofs.Extraction.Session
import SchemaGraph.Proofs.Model.Arena

/-!
# What Handles Mean

A handle is a number, and the numbers depend on the order in which a pass comes across the types.
What a handle stands for does not: it is the place of the schema of the declared type, or of the
variants that the declared type has.  So a cache can be read without its handles, from the
declarations of the module alone.

- `Pass.Points`: a handle that answers a request is the place of what was asked for
- `Pass.Faithful`: names are unique, and every entry spells out the members of its type
- `Field.Says`: what the handles of a field say about the declared type of its member
- `Pass.reads_of_mem_session`: every field of every extracted cache says so
-/

namespace SchemaGraph

namespace Pass

/-! ## §1 Handles and names -/

/-- Where a handle that answers a request points, if the arenas have the names. -/
def Points (p : Pass) (schemas variants : List String) : Request → Handle → Prop
  | .schema fullName, h =>
    if p.needsSchema fullName then ∃ i : Nat, h = i ∧ schemas[i]? = some fullName
    else h = noHandle
  | .variant fullName, h =>
    match p.module.lookup? fullName with
    | some t => ∃ i : Nat, h = i ∧ variants[i]? = some t.name
    | none => h = noHandle

/-- The handle answers the request in the state. -/
def Meant (p : Pass) (q : Request) (h : Handle) (s : State) : Prop :=
  p.Points s.1.schemaNames s.1.variantNames q h

variable {p q : Pass} {low : State}

section Points

variable {schemas variants schemas' variants' : List String} {fullName : String} {h : Handle}

theorem points_schema_of_needs (hneeds : p.needsSchema fullName = true) :
    p.Points schemas variants (.schema fullName) h ↔
      ∃ i : Nat, h = i ∧ schemas[i]? = some fullName := by
  simp only [Points, hneeds, if_true]

theorem points_schema_of_not_needs (hneeds : p.needsSchema fullName = false) :
    p.Points schemas variants (.schema fullName) h ↔ h = noHandle := by
  simp [Points, hneeds]

theorem points_variant {t : TypeInfo} (hlookup : p.module.lookup? fullName = some t) :
    p.Points schemas variants (.variant fullName) h ↔
      ∃ i : Nat, h = i ∧ variants[i]? = some t.name := by
  simp only [Points, hlookup]

theorem points_variant_of_none (hlookup : p.module.lookup? fullName = none) :
    p.Points schemas variants (.variant fullName) h ↔ h = noHandle := by
  simp only [Points, hlookup]

/-- Handles keep their meaning while names are added. -/
theorem Points.mono (hschemas : schemas <+: schemas') (hvariants : variants <+: variants')
    (x : Request) (h : Handle) (hx : p.Points schemas variants x h) :
    p.Points schemas' variants' x h := by
  cases x with
  | schema fullName =>
    cases hneeds : p.needsSchema fullName with
    | false =>
      -- There is no handle on either side, so nothing can move.
      rw [points_schema_of_not_needs hneeds] at hx ⊢
      exact hx
    | true =>
      rw [points_schema_of_needs hneeds] at hx ⊢
      exact hx.imp fun i hi => ⟨hi.1, getElem?_of_prefix hschemas hi.2⟩
  | variant fullName =>
    cases hlookup : p.module.lookup? fullName with
    | none =>
      rw [points_variant_of_none hlookup] at hx ⊢
      exact hx
    | some t =>
      -- A place keeps its name while names are added at the end.
      rw [points_variant hlookup] at hx ⊢
      exact hx.imp fun i hi => ⟨hi.1, getElem?_of_prefix hvariants hi.2⟩

end Points

/-! ## §2 The invariant -/

/-- Names are unique, schemas are needed, and the fields of an entry spell out the members of its
type; an entry without fields is under construction, has failed, or has no members. -/
structure Faithful (p : Pass) (r : Registry) : Prop where
  schemaNames : r.schemaNames.Nodup
  variantNames : r.variantNames.Nodup
  needed : ∀ fullName ∈ r.schemaNames, p.needsSchema fullName = true
  schemas : ∀ s ∈ r.schemas, s.fields = [] ∨
    p.Spelled (p.Points r.schemaNames r.variantNames) s.fullName s.fields
  variants : ∀ v ∈ r.variants, v.fields = [] ∨
    ∃ fullName t, p.module.lookup? fullName = some t ∧ t.name = v.fullName ∧
      p.Spelled (p.Points r.schemaNames r.variantNames) fullName v.fields

/-- The registry stays faithful, and names keep their places. -/
def fidelity (p : Pass) : Regime State where
  Inv := fun s => p.Faithful s.1
  Le := fun s s' => s.1.schemaNames <+: s'.1.schemaNames ∧ s.1.variantNames <+: s'.1.variantNames
  refl := fun _ => ⟨List.prefix_refl _, List.prefix_refl _⟩
  trans := fun h h' => ⟨h.1.trans h'.1, h.2.trans h'.2⟩

theorem faithful_empty (p : Pass) : p.Faithful {} := by
  constructor <;> simp [Registry.schemaNames, Registry.variantNames]

section Writes

variable {r : Registry} {fullName : String} {t : TypeInfo} {fields : List Field} {i : Nat}

theorem Spelled.grow {schemas variants schemas' variants' : List String}
    (hschemas : schemas <+: schemas') (hvariants : variants <+: variants')
    (hfields : p.Spelled (p.Points schemas variants) fullName fields) :
    p.Spelled (p.Points schemas' variants') fullName fields :=
  hfields.mono (Points.mono hschemas hvariants)

theorem Faithful.reserveSchema (hr : p.Faithful r) (hnew : fullName ∉ r.schemaNames)
    (hneeds : p.needsSchema fullName = true) : p.Faithful (r.reserveSchema fullName) := by
  have hgrow : r.schemaNames <+: (r.reserveSchema fullName).schemaNames := by simp
  refine ⟨?_, hr.variantNames, ?_, ?_, ?_⟩
  -- The new name stands at the end, and it is a name that was not there.
  · rw [Registry.schemaNames_reserveSchema]
    exact hr.schemaNames.append (List.nodup_singleton _) (by simpa using hnew)
  · intro name hname
    rw [Registry.schemaNames_reserveSchema] at hname
    rcases List.mem_append.1 hname with hname | hname
    · exact hr.needed name hname
    · exact List.mem_singleton.1 hname ▸ hneeds
  · intro s hs
    rcases List.mem_append.1 hs with hs | hs
    · exact (hr.schemas s hs).imp_right (Spelled.grow hgrow (List.prefix_refl _))
    -- The new schema has no fields, which says nothing wrong about its type.
    · exact .inl (List.mem_singleton.1 hs ▸ rfl)
  · intro v hv
    refine (hr.variants v hv).imp_right ?_
    rintro ⟨name, t, hlookup, ht, hfields⟩
    exact ⟨name, t, hlookup, ht, hfields.grow hgrow (List.prefix_refl _)⟩

theorem Faithful.reserveVariant (hr : p.Faithful r) {shortName : String}
    (hnew : shortName ∉ r.variantNames) (special : Bool) :
    p.Faithful (r.reserveVariant fullName shortName special) := by
  have hgrow : r.variantNames <+: (r.reserveVariant fullName shortName special).variantNames := by
    simp
  refine ⟨hr.schemaNames, ?_, hr.needed, ?_, ?_⟩
  · rw [Registry.variantNames_reserveVariant]
    exact hr.variantNames.append (List.nodup_singleton _) (by simpa using hnew)
  · intro s hs
    exact (hr.schemas s hs).imp_right (Spelled.grow (List.prefix_refl _) hgrow)
  · intro v hv
    rcases List.mem_append.1 hv with hv | hv
    · refine (hr.variants v hv).imp_right ?_
      rintro ⟨name, t, hlookup, ht, hfields⟩
      exact ⟨name, t, hlookup, ht, hfields.grow (List.prefix_refl _) hgrow⟩
    -- The new variant is empty as well.
    · exact .inl (List.mem_singleton.1 hv ▸ rfl)

theorem Faithful.fillSchema (hr : p.Faithful r) (hi : r.schemaNames[i]? = some fullName)
    (hfields : p.Spelled (p.Points r.schemaNames r.variantNames) fullName fields) :
    p.Faithful (r.fillSchema i fields) := by
  refine ⟨?_, hr.variantNames, ?_, ?_, ?_⟩
  · simpa using hr.schemaNames
  · simpa using hr.needed
  · intro s hs
    rw [Registry.schemaNames_fillSchema]
    -- An entry is either the one that was filled or one of the others, which stay as they are.
    rcases (mem_modify_iff ({ · with fields := fields }) (fun _ => rfl) hr.schemaNames hi).1 hs
      with ⟨hname, s', -, -, rfl⟩ | ⟨-, hs⟩
    · exact .inr (hname ▸ hfields)
    · exact hr.schemas s hs
  · rw [Registry.schemaNames_fillSchema]
    exact hr.variants

theorem Faithful.fillVariant (hr : p.Faithful r) (hlookup : p.module.lookup? fullName = some t)
    (hi : r.variantNames[i]? = some t.name)
    (hfields : p.Spelled (p.Points r.schemaNames r.variantNames) fullName fields) :
    p.Faithful (r.fillVariant i fields) := by
  refine ⟨hr.schemaNames, ?_, hr.needed, ?_, ?_⟩
  · simpa using hr.variantNames
  · rw [Registry.variantNames_fillVariant]
    exact hr.schemas
  · intro v hv
    rw [Registry.variantNames_fillVariant]
    rcases (mem_modify_iff ({ · with fields := fields }) (fun _ => rfl) hr.variantNames hi).1 hv
      with ⟨hname, v', -, -, rfl⟩ | ⟨-, hv⟩
    -- The filled variant is the one of the type whose fields these are.
    · exact .inr ⟨fullName, t, hlookup, hname.symm, hfields⟩
    · exact hr.variants v hv

theorem Faithful.recordFailure {e : IntrospectionError} (hr : p.Faithful r) :
    p.Faithful (r.recordFailure fullName e) :=
  ⟨hr.schemaNames, hr.variantNames, hr.needed, hr.schemas, hr.variants⟩

end Writes

/-! ## §3 Requests -/

/-- The resolver spells out the members of a type. -/
def Spells (p : Pass) (fullName : String) (resolve : Run (List Field)) : Prop :=
  ∀ low, Keeps p.fidelity low resolve fun fields s => p.Spelled (p.Meant · · s) fullName fields

/-- **Requesting a schema**: the answer is the place of the type's schema, if it needs one. -/
theorem Spells.keeps_requestSchema {fullName : String} {resolve : Run (List Field)}
    (hresolve : p.Spells fullName resolve) (low : State) :
    Keeps p.fidelity low (Registry.requestSchema p.needsSchema fullName resolve)
      (p.Meant (.schema fullName)) := by
  rintro ⟨r, notes⟩ hinv _
  have hr : p.Faithful r := hinv
  have hreserved : p.fidelity.Le (r, notes) (r.reserveSchema fullName, notes) := ⟨by simp, by simp⟩
  -- Neither has the type failed before nor is its name known, so the place is new.
  have habsent : r.failure? fullName = none → r.schemaHandle? fullName = none →
      fullName ∉ r.schemaNames :=
    fun hfailed hnew => (Registry.schemaHandle?_eq_none.1 hnew).resolve_left (by simp [hfailed])
  have hinside := hresolve (r, notes) (r.reserveSchema fullName, notes)
  have houtcome := Registry.requestSchema_outcome p.needsSchema fullName resolve r notes
  generalize Registry.requestSchema p.needsSchema fullName resolve (r, notes) = result
    at houtcome ⊢
  cases houtcome with
  | failed e =>
    refine ⟨hr, p.fidelity.refl _, fun h hh => ?_⟩
    cases hh
  | known h hknown =>
    refine ⟨hr, p.fidelity.refl _, fun h' hh => ?_⟩
    cases hh
    obtain ⟨-, i, hi, rfl⟩ := (Registry.schemaHandle?_eq_some hr.schemaNames).1 hknown
    -- A schema with a name is a schema that the type needs.
    exact (points_schema_of_needs (hr.needed fullName (List.mem_of_getElem? hi))).2 ⟨i, rfl, hi⟩
  | notNeeded hneeds =>
    refine ⟨hr, p.fidelity.refl _, fun h hh => ?_⟩
    cases hh
    exact (points_schema_of_not_needs hneeds).2 rfl
  | built fields r' notes' hfailed hnew hneeds hrun =>
    obtain ⟨hr', hle', hfields⟩ :=
      hinside (hr.reserveSchema (habsent hfailed hnew) hneeds) hreserved
    rw [hrun] at hr' hle' hfields
    -- The place that was taken still has its name when it is filled.
    have hi : r'.schemaNames[r.schemas.length]? = some fullName :=
      getElem?_of_prefix hle'.1 Registry.getElem?_schemaNames_reserveSchema
    refine ⟨Faithful.fillSchema hr' hi (hfields fields rfl), ?_, fun h hh => ?_⟩
    · refine p.fidelity.trans hreserved ⟨?_, ?_⟩
      · rw [Registry.schemaNames_fillSchema]
        exact hle'.1
      · exact hle'.2
    · cases hh
      refine (points_schema_of_needs hneeds).2 ⟨_, rfl, ?_⟩
      rw [Registry.schemaNames_fillSchema]
      exact hi
  | broken e r' notes' hfailed hnew hneeds hrun =>
    obtain ⟨hr', hle', -⟩ :=
      hinside (hr.reserveSchema (habsent hfailed hnew) hneeds) hreserved
    rw [hrun] at hr' hle'
    refine ⟨Faithful.recordFailure hr', p.fidelity.trans hreserved hle', fun h hh => ?_⟩
    cases hh

/-- **Requesting a variant**: the answer is the place of the variant with the type's short name. -/
theorem Spells.keeps_requestVariant {fullName : String} {t : TypeInfo} {resolve : Run (List Field)}
    (hresolve : p.Spells fullName resolve) (hlookup : p.module.lookup? fullName = some t)
    (special : Bool) (low : State) :
    Keeps p.fidelity low (Registry.requestVariant fullName t.name special resolve)
      (p.Meant (.variant fullName)) := by
  rintro ⟨r, notes⟩ hinv _
  have hr : p.Faithful r := hinv
  have hreserved : p.fidelity.Le (r, notes) (r.reserveVariant fullName t.name special, notes) :=
    ⟨by simp, by simp⟩
  have hinside := hresolve (r, notes) (r.reserveVariant fullName t.name special, notes)
  have houtcome := Registry.requestVariant_outcome fullName t.name special resolve r notes
  generalize Registry.requestVariant fullName t.name special resolve (r, notes) = result
    at houtcome ⊢
  -- The place that is taken has the short name from then on.
  have hplace : ∀ r' : Registry,
      (r.reserveVariant fullName t.name special).variantNames <+: r'.variantNames →
        r'.variantNames[r.variants.length]? = some t.name :=
    fun r' hpre => getElem?_of_prefix hpre Registry.getElem?_variantNames_reserveVariant
  cases houtcome with
  | known h hknown =>
    refine ⟨hr, p.fidelity.refl _, fun h' hh => ?_⟩
    cases hh
    obtain ⟨i, hi, rfl⟩ := (Registry.variantHandle?_eq_some hr.variantNames).1 hknown
    exact (points_variant hlookup).2 ⟨i, rfl, hi⟩
  | built fields r' notes' hnew hrun =>
    obtain ⟨hr', hle', hfields⟩ :=
      hinside (hr.reserveVariant (Registry.variantHandle?_eq_none.1 hnew) special) hreserved
    rw [hrun] at hr' hle' hfields
    have hi := hplace r' hle'.2
    refine ⟨Faithful.fillVariant hr' hlookup hi (hfields fields rfl), ?_, fun h hh => ?_⟩
    · refine p.fidelity.trans hreserved ⟨hle'.1, ?_⟩
      rw [Registry.variantNames_fillVariant]
      exact hle'.2
    · cases hh
      refine (points_variant hlookup).2 ⟨_, rfl, ?_⟩
      rw [Registry.variantNames_fillVariant]
      exact hi
  | absorbed e r' notes' hnew hrun =>
    obtain ⟨hr', hle', -⟩ :=
      hinside (hr.reserveVariant (Registry.variantHandle?_eq_none.1 hnew) special) hreserved
    rw [hrun] at hr' hle'
    refine ⟨hr', p.fidelity.trans hreserved hle', fun h hh => ?_⟩
    cases hh
    exact (points_variant hlookup).2 ⟨_, rfl, hplace r' hle'.2⟩

theorem supports_of_answers_meant {ask : Request → Run Handle}
    (hask : ∀ x low, Keeps p.fidelity low (ask x) (p.Meant x)) :
    Supports p.fidelity p.Meant ask where
  notes := fun _ _ _ _ hr => ⟨hr, List.prefix_refl _, List.prefix_refl _⟩
  mono := fun x h _ _ hle => Points.mono hle.1 hle.2 x h
  answers := hask

/-- **Requests**: however deep they may nest, the answers mean what was asked for.  Resolvers make
requests that nest less deep, so the induction is on the bound. -/
theorem meant_request (hagrees : p.Agrees q) (depth : Nat) (x : Request) (low : State) :
    Keeps p.fidelity low (q.request depth x) (p.Meant x) := by
  induction depth generalizing x low with
  | zero =>
    cases x with
    | schema fullName => exact Keeps.throw _
    | variant fullName => exact Keeps.throw _
  | succ depth ih =>
    have hresolve : ∀ fullName, p.Spells fullName (q.flattenWith (q.request depth) fullName) :=
      fun fullName low => ((supports_of_answers_meant ih).keeps_flattenWith q fullName low).weaken
        fun _ _ => Spelled.of_agrees hagrees
    cases x with
    | schema fullName =>
      unfold request
      -- Both passes need the same schemas, since they read one module by the same conventions.
      rw [needsSchema_of_agrees hagrees]
      exact (hresolve fullName).keeps_requestSchema low
    | variant fullName =>
      unfold request
      cases hlookup : q.module.lookup? fullName with
      | none =>
        rw [hagrees.1] at hlookup
        exact Keeps.pure fun _ _ _ => (points_variant_of_none hlookup).2 rfl
      | some t =>
        rw [hagrees.1] at hlookup
        exact (hresolve fullName).keeps_requestVariant hlookup _ low

theorem supports_request_meant (hagrees : p.Agrees q) :
    Supports p.fidelity p.Meant (q.request q.depthBound) :=
  supports_of_answers_meant (meant_request hagrees q.depthBound)

/-! ## §4 What fields say -/

/-- Why a type has no schema. -/
def LacksSchema (p : Pass) (fullName : String) : Prop :=
  p.conventions.isScalar fullName = true ∨ p.isBanned fullName = true
    ∨ (∃ t, p.module.lookup? fullName = some t ∧ t.isEnum = true)
    ∨ p.module.lookup? fullName = none

theorem lacksSchema_iff {fullName : String} :
    p.LacksSchema fullName ↔ p.needsSchema fullName = false := by
  unfold LacksSchema needsSchema
  cases p.module.lookup? fullName <;> cases p.conventions.isScalar fullName <;>
    cases p.isBanned fullName <;> simp

/-- Why the items of a list choose a variant. -/
def IsFamily (p : Pass) (fullName : String) : Prop :=
  p.module.hasSubtypes fullName = true
    ∨ ∃ t, p.module.lookup? fullName = some t ∧ (t.isAbstract = true ∨ t.isInterface = true)

theorem isFamily_iff {fullName : String} :
    p.IsFamily fullName ↔ p.isPolymorphic fullName = true := by
  unfold IsFamily isPolymorphic
  cases p.module.lookup? fullName <;> simp

end Pass

/-- **What the handles of a field say** in a cache, about the declared type of its member. -/
structure Field.Says (p : Pass) (c : Cache) (m : Member) (f : Field) : Prop where
  name : f.name = m.name
  /-- There are no fields below it: they are those of the schema. -/
  leaf : f.children = none
  /-- A nested field has the schema of its declared type, unless that lacks one. -/
  nested : f.kind = .nested → m.type = .named f.declaredType
    ∧ (0 ≤ f.schemaId →
        ∃ s, entryAt? c.schemas f.schemaId = some s ∧ s.fullName = f.declaredType)
    ∧ (f.schemaId = noHandle ↔ p.LacksSchema f.declaredType)
  /-- A list has the schema of its items. -/
  list : f.kind.isList = true → (∃ item, m.type = .list item)
    ∧ (0 ≤ f.schemaId → ∃ s, entryAt? c.schemas f.schemaId = some s
        ∧ f.declaredType = "List<" ++ s.fullName ++ ">")
  /-- A list of items of a named type lacks a schema if the type does, and has the variants of the
  type, if that is a family. -/
  items : ∀ itemType, m.type = .list (.named itemType) → f.kind.isList = true
    ∧ (f.schemaId = noHandle ↔ p.LacksSchema itemType)
    ∧ (f.variantIds.isSome = true ↔ p.IsFamily itemType)
    ∧ ∀ ids, f.variantIds = some ids →
        ids.map (fun h => (entryAt? c.variants h).map (·.fullName)) =
          ((p.module.allSubtypes itemType).filter p.isVariantCandidate).map
            fun t => (p.module.lookup? t).map (·.name)

namespace Pass

section Says

variable {p : Pass} {c : Cache} {fullName : String} {h : Handle} {m : Member} {f : Field}

/-- The answers of a cache. -/
def PointsIn (p : Pass) (c : Cache) : Request → Handle → Prop :=
  p.Points (c.schemas.map (·.fullName)) (c.variants.map (·.fullName))

theorem entryAt?_of_pointsIn (hh : p.PointsIn c (.schema fullName) h) (hnonneg : 0 ≤ h) :
    ∃ s, entryAt? c.schemas h = some s ∧ s.fullName = fullName := by
  cases hneeds : p.needsSchema fullName with
  | false =>
    obtain rfl := (points_schema_of_not_needs hneeds).1 hh
    exact absurd hnonneg (by decide)
  | true =>
    obtain ⟨i, rfl, hi⟩ := (points_schema_of_needs hneeds).1 hh
    simpa [entryAt?_natCast] using hi

theorem eq_noHandle_iff_of_pointsIn (hh : p.PointsIn c (.schema fullName) h) :
    h = noHandle ↔ p.LacksSchema fullName := by
  rw [lacksSchema_iff]
  cases hneeds : p.needsSchema fullName with
  | false => simpa using (points_schema_of_not_needs hneeds).1 hh
  | true =>
    obtain ⟨i, rfl, -⟩ := (points_schema_of_needs hneeds).1 hh
    simp [noHandle]

/-- A scalar item type is not asked for, but would be answered alike. -/
theorem IsItemSchema.pointsIn (hh : p.IsItemSchema (p.PointsIn c) fullName h) :
    p.PointsIn c (.schema fullName) h := by
  unfold IsItemSchema at hh
  split at hh
  next hscalar =>
    exact (points_schema_of_not_needs (by simp [needsSchema, hscalar])).2 hh
  next => exact hh

theorem variantNames_of_pointsIn {itemType : String} {ids : List Handle}
    (hids : List.Forall₂ (fun t => p.PointsIn c (.variant t)) (p.variantCandidates itemType) ids) :
    ids.map (fun h => (entryAt? c.variants h).map (·.fullName)) =
      (p.variantCandidates itemType).map fun t => (p.module.lookup? t).map (·.name) := by
  -- A candidate is declared, so a handle that answers it has to be a place.
  have hdeclared : ∀ t ∈ p.variantCandidates itemType, (p.module.lookup? t).isSome = true := by
    intro t ht
    have hcandidate := (List.mem_filter.1 ht).2
    unfold isVariantCandidate at hcandidate
    cases hlookup : p.module.lookup? t <;> simp_all
  generalize p.variantCandidates itemType = candidates at hids hdeclared ⊢
  -- Along the list of candidates, each handle is the place of a declared variant.
  induction hids with
  | nil => rfl
  | @cons t h candidates ids hh _ ih =>
    obtain ⟨info, hlookup⟩ := Option.isSome_iff_exists.1 (hdeclared t List.mem_cons_self)
    obtain ⟨i, rfl, hi⟩ := (points_variant hlookup).1 hh
    rw [List.map_cons, List.map_cons, ih fun t ht => hdeclared t (List.mem_cons_of_mem _ ht)]
    rw [entryAt?_natCast, hlookup, ← List.getElem?_map, hi]
    rfl

/-- A field that is neither nested nor a list says nothing. -/
theorem says_of_plain (hname : f.name = m.name) (hleaf : f.children = none)
    (hnested : f.kind ≠ .nested) (hlist : f.kind.isList = false)
    (htype : m.type = .named fullName) : f.Says p c m where
  name := hname
  leaf := hleaf
  nested := fun h => absurd h hnested
  list := fun h => by simp [hlist] at h
  items := fun itemType h => by simp [htype] at h

theorem says_of_list {itemType : String} (htype : m.type = .list (.named itemType))
    (hname : f.name = m.name) (hleaf : f.children = none) (hkind : f.kind.isList = true)
    (hdeclared : f.declaredType = m.type.display) (hh : p.PointsIn c (.schema itemType) f.schemaId)
    (hsome : f.variantIds.isSome = p.isPolymorphic itemType)
    (hids : ∀ ids, f.variantIds = some ids →
      List.Forall₂ (fun t => p.PointsIn c (.variant t)) (p.variantCandidates itemType) ids) :
    f.Says p c m where
  name := hname
  leaf := hleaf
  nested := fun h => by simp [h, FieldKind.isList] at hkind
  list := by
    refine fun _ => ⟨⟨_, htype⟩, fun hnonneg => ?_⟩
    -- A handle that is given stands for the schema of the item type, which the declared type shows.
    obtain ⟨s, hs, rfl⟩ := entryAt?_of_pointsIn hh hnonneg
    exact ⟨s, hs, by rw [hdeclared, htype]; rfl⟩
  items := by
    intro itemType' htype'
    obtain rfl : itemType = itemType' := by simpa [htype] using htype'
    refine ⟨hkind, eq_noHandle_iff_of_pointsIn hh, ?_, fun ids h => ?_⟩
    · rw [hsome, isFamily_iff]
    · exact variantNames_of_pointsIn (hids ids h)

/-- **Made fields say what they should.** -/
theorem Made.says (hf : p.Made (p.PointsIn c) m f) : f.Says p c m := by
  cases hf with
  | deepList item htype =>
    -- A list of lists stays without a handle, so there is nothing to be said about it.
    exact {
      name := rfl
      leaf := rfl
      nested := fun h => by cases h
      list := fun _ => ⟨⟨_, htype⟩, fun hnonneg => absurd hnonneg (by decide : ¬ 0 ≤ noHandle)⟩
      items := fun itemType h => by simp [htype] at h }
  | list itemType h htype hpoly hh =>
    exact says_of_list htype rfl rfl rfl rfl hh.pointsIn hpoly.symm fun ids h => by cases h
  | polymorphicList itemType h ids htype hpoly hh hids =>
    exact says_of_list htype rfl rfl rfl rfl hh.pointsIn hpoly.symm fun ids' h => by
      obtain rfl := Option.some.inj h
      exact hids
  | scalar typeName htype hscalar =>
    exact says_of_plain rfl rfl (by decide : FieldKind.scalar ≠ .nested) rfl htype
  | enumerated typeName t htype hscalar hlookup henum =>
    exact says_of_plain rfl rfl (by decide : FieldKind.enumerated ≠ .nested) rfl htype
  | nested typeName h htype hscalar hnestable hh =>
    exact {
      name := rfl
      leaf := rfl
      nested := fun _ => ⟨htype, entryAt?_of_pointsIn hh, eq_noHandle_iff_of_pointsIn hh⟩
      list := fun h => by cases h
      items := fun itemType h => by simp [htype] at h }
  | external typeName htype hscalar hlookup hbanned =>
    exact says_of_plain rfl rfl (by decide : FieldKind.external ≠ .nested) rfl htype

end Says

/-! ## §5 Extracted caches -/

/-- The fields of a type, each saying what its member declares. -/
def SaysAll (p : Pass) (c : Cache) (fullName : String) (fields : List Field) : Prop :=
  ∃ members, p.allMembers fullName = some members ∧ List.Forall₂ (Field.Says p c) members fields

/-- A cache that can be read from the declarations of the module. -/
structure Reads (p : Pass) (c : Cache) : Prop where
  definitions : ∀ d ∈ c.definitions,
    ∃ t ∈ p.definitionTypes, d.fullName = t.fullName ∧ p.SaysAll c t.fullName d.fields
  schemas : ∀ s ∈ c.schemas, s.fields = [] ∨ p.SaysAll c s.fullName s.fields
  variants : ∀ v ∈ c.variants, v.fields = [] ∨
    ∃ fullName t, p.module.lookup? fullName = some t ∧ t.name = v.fullName
      ∧ p.SaysAll c fullName v.fields
  schemaNames : (c.schemas.map (·.fullName)).Nodup
  variantNames : (c.variants.map (·.fullName)).Nodup

theorem Spelled.saysAll {p : Pass} {c : Cache} {fullName : String} {fields : List Field}
    (hfields : p.Spelled (p.PointsIn c) fullName fields) : p.SaysAll c fullName fields := by
  obtain ⟨members, hmembers, hmade⟩ := hfields
  exact ⟨members, hmembers, hmade.imp fun m f => Made.says⟩

theorem reads_empty (p : Pass) : p.Reads .empty := by
  constructor <;> simp [Cache.empty]

theorem Collected.reads {p : Pass} {c : Cache} {s : State}
    (hc : p.Collected p.fidelity p.Meant c s) : p.Reads c := by
  have hr : p.Faithful s.1 := hc.inv
  -- The arenas of the cache are those of the state, so meaning carries over.
  have hmeant : ∀ q h, p.Meant q h s → p.PointsIn c q h := by
    intro q h hh
    unfold PointsIn
    rw [hc.schemas, hc.variants]
    exact hh
  refine ⟨fun d hd => ?_, fun x hx => ?_, fun v hv => ?_, ?_, ?_⟩
  -- Each record was made of fields that spell out its type.
  · obtain ⟨t, ht, fields, rfl, hfields⟩ := hc.definitions d hd
    exact ⟨t, ht, rfl, (hfields.mono hmeant).saysAll⟩
  · exact (hr.schemas x (hc.schemas ▸ hx)).imp_right fun hfields => (hfields.mono hmeant).saysAll
  · refine (hr.variants v (hc.variants ▸ hv)).imp_right ?_
    rintro ⟨fullName, t, hlookup, ht, hfields⟩
    exact ⟨fullName, t, hlookup, ht, (hfields.mono hmeant).saysAll⟩
  · rw [hc.schemas]
    exact hr.schemaNames
  · rw [hc.variants]
    exact hr.variantNames

/-- **Handles mean what the declared types say**, in every cache that is extracted in a session of
a manifest, whatever was done in the session before. -/
theorem reads_of_mem_session {path : String} {manifest : ModuleManifest} {keys : KeyOrder}
    {conventions : Conventions}
    {ops : List Operation} {step : Except IntrospectionError Reply × State} {c : Cache}
    (hstep : step ∈ (ofManifest path manifest conventions keys).session ops start)
    (hc : step.1 = .ok (.cache c)) : (ofManifest path manifest conventions keys).Reads c := by
  have hask := supports_request_meant (agrees_refl (ofManifest path manifest conventions keys))
  have hmarked := supports_request_meant (agrees_marked (ofManifest path manifest conventions keys))
  have hstart : (ofManifest path manifest conventions keys).fidelity.Inv start := faithful_empty _
  obtain ⟨-, hreplies⟩ := hask.of_mem_session hmarked hstart hstep
  -- Only an extraction replies with a cache, and an empty one says nothing.
  obtain ⟨op, -, hreply⟩ := hreplies _ hc
  cases op <;> try exact hreply.elim
  rcases hreply with rfl | ⟨s, hcollected⟩
  · exact reads_empty _
  · exact hcollected.reads

/-- What extraction makes of the lamps. -/
def lampCache : Cache :=
  ((Module.ofManifest "lamps.json" lampManifest).extract {}).toOption.getD .empty

/-- The parts of a lamp are a family of a bulb and a cord. -/
theorem reads_lampCache :
    ((ofManifest "lamps.json" lampManifest {}).perform .extract start).1 = .ok (.cache lampCache)
      ∧ lampCache.definitions.map (·.fields) =
          [[.polymorphicList "parts" "List<Mod.Part>" 2 [0, 1]]]
      ∧ lampCache.schemas.map (·.fullName) = ["Mod.Vector", "Mod.LampDef", "Mod.Part"]
      ∧ lampCache.variants.map (·.fullName) = ["Bulb", "Cord"]
      ∧ (ofManifest "lamps.json" lampManifest {}).Reads lampCache := by
  have hreply : ((ofManifest "lamps.json" lampManifest {}).perform .extract start).1 =
      .ok (.cache lampCache) := by decide +kernel
  -- The session has one operation, which is the extraction itself.
  have hstep : (ofManifest "lamps.json" lampManifest {}).perform .extract start ∈
      (ofManifest "lamps.json" lampManifest {}).session [.extract] start := List.mem_cons_self
  exact ⟨hreply, by decide +kernel, by decide +kernel, by decide +kernel,
    reads_of_mem_session hstep hreply⟩

end Pass

end SchemaGraph
