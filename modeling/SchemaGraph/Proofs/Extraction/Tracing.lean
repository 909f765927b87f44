import SchemaGraph.Proofs.Extraction.Completion
import SchemaGraph.Proofs.Extraction.Failures

/-!
# Tracing a Registry

Variants come from three sources: the component families, the properties types, and the item types
of lists, which are met in whatever order the recursion goes.  Whichever comes first, the variant is
that of its type, and its fields are those of the type unless something that the type leads to
cannot be read.  Failures leave a trace as well: whatever is recorded as failed leads to a type that
cannot be read.  Both are kept by every request, while other variants are still under construction.

- `Pass.offered`: the types that a pass requests variants of
- `Pass.StandsFor`, `Pass.Traced`: what the variants and failures of a registry are
- `Pass.request_traces`: requests keep it, and fail with good reason only
- `Pass.traced_extract`, `Pass.reachesUnreadable_of_extract`: what an extraction leaves, and why it
  fails
-/

namespace SchemaGraph

theorem forIn_congr {σ ε α γ : Type} {f f' : α → γ → ExceptT ε (StateM σ) (ForInStep γ)}
    {xs : List α} (b : γ) (h : ∀ x ∈ xs, ∀ b, f x b = f' x b) :
    (ForIn.forIn xs b f : ExceptT ε (StateM σ) γ) = ForIn.forIn xs b f' := by
  induction xs generalizing b with
  | nil => rfl
  | cons x xs ih =>
    rw [List.forIn_cons, List.forIn_cons, h x List.mem_cons_self b]
    refine congrArg _ (funext fun step => ?_)
    -- The body may end the loop or go on.
    cases step with
    | done b' => rfl
    | yield b' => exact ih b' fun y hy => h y (List.mem_cons_of_mem _ hy)

namespace Pass

variable {p : Pass} {ask : Request → Run Handle} {fullName : String} {t : TypeInfo} {v : Variant}
  {low : State}

/-! ## §1 Offered variants -/

/-- The item type of a list member. -/
def listItem? (m : Member) : Option String :=
  match m.type with
  | .list (.named itemType) => some itemType
  | _ => none

/-- The item types of all list members that are declared. -/
def itemTypes (p : Pass) : List String :=
  (p.module.types ++ p.module.imports).flatMap fun t =>
    (t.members.filter Member.isInstanceMember).filterMap listItem?

/-- The types that a pass may request variants of. -/
def offered (p : Pass) : List String :=
  p.componentTypes ++ p.propertiesTypes.map (·.fullName)
    ++ p.itemTypes.flatMap p.variantCandidates

/-- Whatever is offered is an own type. -/
theorem exists_own_of_mem_offered (h : fullName ∈ p.offered) :
    ∃ t ∈ p.module.types, t.fullName = fullName ∧ p.module.lookup? fullName = some t := by
  unfold offered at h
  rcases List.mem_append.1 h with h | h
  · rcases List.mem_append.1 h with h | h
    · obtain ⟨family, -, hmember⟩ := List.mem_flatMap.1 (List.mem_filter.1 h).1
      exact Module.exists_own_of_mem_allSubtypes hmember
    · obtain ⟨t, ht, rfl⟩ := List.mem_map.1 h
      exact Module.exists_own_of_mem (List.mem_map_of_mem (List.mem_filter.1 ht).1)
  · obtain ⟨itemType, -, hcandidate⟩ := List.mem_flatMap.1 h
    exact Module.exists_own_of_mem_allSubtypes (List.mem_filter.1 hcandidate).1

theorem listItem?_of_variant_mem {m : Member} (h : .variant fullName ∈ p.requestsOf m) :
    ∃ itemType, listItem? m = some itemType ∧ fullName ∈ p.variantCandidates itemType := by
  unfold requestsOf at h
  unfold listItem?
  cases htype : m.type with
  | named typeName =>
    simp only [htype] at h
    split at h <;> simp at h
  | list item =>
    cases item with
    | list item => simp [htype] at h
    | named itemType =>
      -- Variants are asked for by polymorphic lists; the schema of the item type is not one of
      -- them.
      simp only [htype] at h
      rcases List.mem_append.1 h with h | h
      · split at h
        · exact ⟨itemType, rfl, by simpa using h⟩
        · cases h
      · split at h <;> simp at h

/-- The members of a record ask for offered variants only. -/
theorem mem_offered_of_mem_record {record : TypeRecord} {m : Member} {x : String}
    (hrecord : p.module.introspect p.conventions fullName = .ok record) (hm : m ∈ record.members)
    (hx : .variant x ∈ p.requestsOf m) : x ∈ p.offered := by
  obtain ⟨itemType, hitem, hcandidate⟩ := listItem?_of_variant_mem hx
  -- The member is an item list of a type that can be read, so its candidates are offered.
  refine List.mem_append_right _ (List.mem_flatMap.2 ⟨itemType, ?_, hcandidate⟩)
  cases hlookup : p.module.lookup? fullName with
  | none => simp [Module.introspect, hlookup] at hrecord
  | some t =>
    obtain ⟨-, hmembers⟩ := introspect_eq_ok hlookup hrecord
    rw [hmembers, keptMembers] at hm
    split at hm
    · cases hm
    · exact List.mem_flatMap.2 ⟨t, (Module.lookup?_eq_some hlookup).1,
        List.mem_filterMap.2 ⟨m, hm, hitem⟩⟩

/-- Makes a request as before, but for variants that are not offered. -/
def offering (p : Pass) (ask : Request → Run Handle) : Request → Run Handle
  | .schema fullName => ask (.schema fullName)
  | .variant fullName => if fullName ∈ p.offered then ask (.variant fullName) else pure noHandle

theorem offering_variant (h : fullName ∈ p.offered) :
    p.offering ask (.variant fullName) = ask (.variant fullName) := if_pos h

theorem flattenLevels_offering (taken : List String) (levels : List TypeInfo) :
    p.flattenLevels (p.offering ask) taken levels = p.flattenLevels ask taken levels := by
  induction levels generalizing taken with
  | nil => rfl
  | cons t levels ih =>
    unfold flattenLevels
    funext s
    rw [run_bind, run_bind, introspect_run]
    cases hrecord : p.module.introspect p.conventions t.fullName with
    | error e => rfl
    | ok record =>
      have hmembers : (newcomers (·.name) taken record.members).mapM
          (p.classifyWith (p.offering ask)) =
            (newcomers (·.name) taken record.members).mapM (p.classifyWith ask) := by
        -- Members of the record only ask for what is offered, so nothing is turned down.
        refine mapM_congr fun m hm => classifyWith_congr fun x hx => ?_
        cases x with
        | schema typeName => rfl
        | variant typeName =>
          exact offering_variant (mem_offered_of_mem_record hrecord (mem_of_mem_newcomers hm) hx)
      simp only [hmembers, ih]

/-- No field asks for a variant that is not offered. -/
theorem flattenWith_offering (p : Pass) (ask : Request → Run Handle) (fullName : String) :
    p.flattenWith (p.offering ask) fullName = p.flattenWith ask fullName :=
  flattenLevels_offering [] _

theorem requestComponentsWith_offering (p : Pass) (ask : Request → Run Handle) :
    p.requestComponentsWith (p.offering ask) = p.requestComponentsWith ask := by
  unfold requestComponentsWith
  rw [forIn_congr _ fun fullName hmem _ => ?_]
  have hoffered : fullName ∈ p.offered :=
    List.mem_append_left _ (List.mem_append_left _ hmem)
  rw [offering_variant hoffered]

theorem requestPropertiesWith_offering (p : Pass) (ask : Request → Run Handle) :
    p.requestPropertiesWith (p.offering ask) = p.requestPropertiesWith ask := by
  unfold requestPropertiesWith
  rw [forIn_congr _ fun t hmem _ => ?_]
  split
  next hproperties =>
    have hoffered : t.fullName ∈ p.offered := List.mem_append_left _
      (List.mem_append_right _ (List.mem_map_of_mem (List.mem_filter.2 ⟨hmem, hproperties⟩)))
    rw [offering_variant hoffered]
  · rfl

theorem definitionsWith_offering (p : Pass) (ask : Request → Run Handle) :
    p.definitionsWith (p.offering ask) = p.definitionsWith ask := by
  have hdefinition : p.definitionWith? (p.offering ask) = p.definitionWith? ask := by
    funext t
    simp only [definitionWith?, flattenWith_offering]
  simp only [definitionsWith, hdefinition]

/-! ## §2 The trace -/

/-- The fields are named after the members of the type, and all of its base chain can be read. -/
def HasFields (p : Pass) (fullName : String) (fields : List Field) : Prop :=
  ¬ p.InheritsUnreadable fullName ∧ fields.map (·.name) = p.fieldNames fullName

theorem Spelled.hasFields {A : Request → Handle → Prop} {fields : List Field}
    (hfields : p.Spelled A fullName fields) : p.HasFields fullName fields := by
  refine ⟨fun hinherits => ?_, hfields.names⟩
  obtain ⟨members, hmembers, -⟩ := hfields
  obtain ⟨hloads, -⟩ := allMembers_eq_some.1 hmembers
  obtain ⟨t, ht, hload⟩ := inheritsUnreadable_iff.1 hinherits
  exact hload (hloads t ht)

/-- The variant is that of an own type.  It has the fields of the type, or none because it is under
construction or something that the type leads to cannot be read. -/
structure StandsFor (p : Pass) (underway : List String) (t : TypeInfo) (v : Variant) : Prop where
  own : t ∈ p.module.types
  declared : p.module.lookup? t.fullName = some t
  name : v.fullName = t.name
  offered : t.fullName ∈ p.offered
  special : v.isSpecialKind = p.componentMembers.contains t.fullName
  fields : p.HasFields t.fullName v.fields ∨
    v.fields = [] ∧ (t.name ∈ underway ∨ p.ReachesUnreadable t.fullName)

/-- What failed leads to an unreadable type, and the variants stand for types of their names. -/
structure Traced (p : Pass) (underway : List String) (r : Registry) : Prop where
  failures : ∀ failure ∈ r.failures, p.Blames (.schema failure.1)
  variants : (p.module.types.map (·.name)).Nodup → ∀ v ∈ r.variants, ∃ t, p.StandsFor underway t v

/-- The registry is traced but for the variants `underway`, and there is room for less than `depth`
more entries. -/
def tracing (p : Pass) (underway : List String) (depth : Nat) : Regime State :=
  p.counting.restrict fun s => p.Traced underway s.1 ∧ p.room s.1 < depth

section Writes

variable {r : Registry} {underway : List String}

theorem StandsFor.of_subset {underway' : List String} (hv : p.StandsFor underway t v)
    (hsubset : underway ⊆ underway') : p.StandsFor underway' t v :=
  { hv with fields := hv.fields.imp_right fun h => h.imp_right fun h => h.imp_left (hsubset ·) }

theorem Traced.recordFailure {e : IntrospectionError} (hr : p.Traced underway r)
    (hblames : p.Blames (.schema fullName)) : p.Traced underway (r.recordFailure fullName e) :=
  ⟨List.forall_mem_cons.2 ⟨hblames, hr.failures⟩, hr.variants⟩

theorem Traced.blames_of_failure? {e : IntrospectionError} (hr : p.Traced underway r)
    (h : r.failure? fullName = some e) : p.Blames (.schema fullName) := by
  obtain ⟨before, after, hsplit, -⟩ := List.lookup_eq_some_iff.1 h
  exact hr.failures (fullName, e) (hsplit ▸ List.mem_append_right _ List.mem_cons_self)

/-- A new variant is under construction. -/
theorem Traced.reserveVariant (hr : p.Traced underway r) (hown : t ∈ p.module.types)
    (hlookup : p.module.lookup? t.fullName = some t) (hoffered : t.fullName ∈ p.offered) :
    p.Traced (t.name :: underway)
      (r.reserveVariant t.fullName t.name (p.componentMembers.contains t.fullName)) := by
  refine ⟨hr.failures, fun hshort v hv => ?_⟩
  rcases List.mem_append.1 hv with hv | hv
  · obtain ⟨u, hu⟩ := hr.variants hshort v hv
    exact ⟨u, hu.of_subset (List.subset_cons_self _ _)⟩
  · obtain rfl := List.mem_singleton.1 hv
    exact ⟨t, hown, hlookup, rfl, hoffered, rfl, .inr ⟨rfl, .inl List.mem_cons_self⟩⟩

/-- No other own type has the short name of an own type. -/
theorem StandsFor.eq_of_name {underway' : List String} (hv : p.StandsFor underway' t v)
    (hshort : (p.module.types.map (·.name)).Nodup) {u : TypeInfo} (hown : u ∈ p.module.types)
    (hname : v.fullName = u.name) : t = u :=
  List.inj_on_of_nodup_map hshort hv.own hown (hv.name.symm.trans hname)

/-- Filling the variant finishes it. -/
theorem Traced.fillVariant (hr : p.Traced (t.name :: underway) r) (hown : t ∈ p.module.types)
    {i : Nat} (hnodup : r.variantNames.Nodup) (hi : r.variantNames[i]? = some t.name)
    {fields : List Field} (hfields : p.HasFields t.fullName fields) :
    p.Traced underway (r.fillVariant i fields) := by
  refine ⟨hr.failures, fun hshort v hv => ?_⟩
  rcases (mem_modify_iff ({ · with fields := fields }) (fun _ => rfl) hnodup hi).1 hv
    with ⟨hname, v', hv', -, rfl⟩ | ⟨hname, hv⟩
  · -- Only the fields are new.
    obtain ⟨u, hu⟩ := hr.variants hshort v' hv'
    obtain rfl := hu.eq_of_name hshort hown hname
    exact ⟨u, hu.own, hu.declared, hu.name, hu.offered, hu.special, .inl hfields⟩
  · -- A variant of another name is not the one that is finished.
    obtain ⟨u, hu⟩ := hr.variants hshort v hv
    have hother : u.name ≠ t.name := fun heq => hname (hu.name.trans heq)
    refine ⟨u, { hu with fields := hu.fields.imp_right fun h => h.imp_right fun h => ?_ }⟩
    exact h.imp_left fun hmem => (List.mem_cons.1 hmem).resolve_left hother

/-- Without fields it is finished, too, if the type leads to an unreadable one. -/
theorem Traced.absorb (hr : p.Traced (t.name :: underway) r) (hown : t ∈ p.module.types)
    (hreaches : p.ReachesUnreadable t.fullName) : p.Traced underway r := by
  refine ⟨hr.failures, fun hshort v hv => ?_⟩
  obtain ⟨u, hu⟩ := hr.variants hshort v hv
  refine ⟨u, { hu with fields := hu.fields.imp_right fun h => h.imp_right fun h => ?_ }⟩
  rcases h with hmem | hreaches'
  · rcases List.mem_cons.1 hmem with hname | hmem
    · obtain rfl := hu.eq_of_name hshort hown (hu.name.trans hname)
      exact .inr hreaches
    · exact .inl hmem
  · exact .inr hreaches'

end Writes

/-! ## §3 Requests -/

section Requests

variable {underway : List String} {depth : Nat}

/-- **Requesting a schema**: it fails if it has failed before or if its resolver fails. -/
theorem requestSchema_traces {resolve : Run (List Field)}
    (hkeeps : ∀ low, Keeps (p.tracing underway depth) low resolve fun _ _ => True)
    (hfail : FailsOnlyIf (p.tracing underway depth) resolve (p.ReachesUnreadable fullName))
    {s : State} (hs : (p.tracing underway (depth + 1)).Inv s) :
    (∀ e, (Registry.requestSchema p.needsSchema fullName resolve s).1 = .error e →
        p.Blames (.schema fullName))
      ∧ p.Traced underway (Registry.requestSchema p.needsSchema fullName resolve s).2.1 := by
  obtain ⟨r, notes⟩ := s
  obtain ⟨hcounting, htraced, hroom⟩ := hs
  -- Once the place is taken, the resolver starts in the regime with less room.
  have hreserved : r.failure? fullName = none → r.schemaHandle? fullName = none →
      p.needsSchema fullName = true →
      (p.tracing underway depth).Inv (r.reserveSchema fullName, notes) := by
    intro hnone hnew hneeds
    obtain ⟨hcounting', hless⟩ := counting_reserveSchema hcounting hnone hnew hneeds
    exact ⟨hcounting', ⟨htraced.failures, htraced.variants⟩,
      Nat.lt_of_lt_of_le hless (Nat.le_of_lt_succ hroom)⟩
  have houtcome := Registry.requestSchema_outcome p.needsSchema fullName resolve r notes
  generalize Registry.requestSchema p.needsSchema fullName resolve (r, notes) = result
    at houtcome ⊢
  cases houtcome with
  | failed e he => exact ⟨fun _ _ => htraced.blames_of_failure? he, htraced⟩
  | known h hknown => exact ⟨nofun, htraced⟩
  | notNeeded hneeds => exact ⟨nofun, htraced⟩
  | built fields r' notes' hnone hnew hneeds hrun =>
    obtain ⟨⟨-, htraced', -⟩, -, -⟩ := hkeeps _ _ (hreserved hnone hnew hneeds) (p.counting.refl _)
    rw [hrun] at htraced'
    exact ⟨nofun, htraced'.failures, htraced'.variants⟩
  | broken e r' notes' hnone hnew hneeds hrun =>
    have hinside := hreserved hnone hnew hneeds
    -- The resolver has failed for a reason, and this is recorded with the type to blame.
    obtain ⟨⟨-, htraced', -⟩, -, -⟩ := hkeeps _ _ hinside (p.counting.refl _)
    rw [hrun] at htraced'
    have hblames : p.Blames (.schema fullName) :=
      ⟨hneeds, hfail _ hinside e (congrArg Prod.fst hrun)⟩
    exact ⟨fun _ _ => hblames, htraced'.recordFailure hblames⟩

/-- **Requesting a variant**: it never fails.  While its resolver runs the variant is under
construction; a failure of the resolver leaves it without fields. -/
theorem requestVariant_traces {resolve : Run (List Field)} (hown : t ∈ p.module.types)
    (hlookup : p.module.lookup? t.fullName = some t) (hoffered : t.fullName ∈ p.offered)
    (hkeeps : ∀ low, Keeps (p.tracing (t.name :: underway) depth) low resolve
      fun fields _ => p.HasFields t.fullName fields)
    (hfail : FailsOnlyIf (p.tracing (t.name :: underway) depth) resolve
      (p.ReachesUnreadable t.fullName))
    {s : State} (hs : (p.tracing underway (depth + 1)).Inv s) :
    (∀ e, (Registry.requestVariant t.fullName t.name
        (p.componentMembers.contains t.fullName) resolve s).1 ≠ .error e)
      ∧ p.Traced underway (Registry.requestVariant t.fullName t.name
        (p.componentMembers.contains t.fullName) resolve s).2.1 := by
  obtain ⟨r, notes⟩ := s
  obtain ⟨hcounting, htraced, hroom⟩ := hs
  -- From now on the variant is under construction, so it may lack its fields.
  have hreserved : r.variantHandle? t.name = none → (p.tracing (t.name :: underway) depth).Inv
      (r.reserveVariant t.fullName t.name (p.componentMembers.contains t.fullName), notes) := by
    intro hnew
    obtain ⟨hcounting', hless⟩ := counting_reserveVariant hcounting hnew
      (Module.mem_shortNames_of_lookup? hlookup) t.fullName (p.componentMembers.contains t.fullName)
    exact ⟨hcounting', htraced.reserveVariant hown hlookup hoffered,
      Nat.lt_of_lt_of_le hless (Nat.le_of_lt_succ hroom)⟩
  have houtcome := Registry.requestVariant_outcome t.fullName t.name
    (p.componentMembers.contains t.fullName) resolve r notes
  generalize Registry.requestVariant t.fullName t.name
    (p.componentMembers.contains t.fullName) resolve (r, notes) = result at houtcome ⊢
  cases houtcome with
  | known h hknown => exact ⟨nofun, htraced⟩
  | built fields r' notes' hnew hrun =>
    obtain ⟨⟨⟨hfaithful', -⟩, htraced', -⟩, hle', hfields⟩ :=
      hkeeps _ _ (hreserved hnew) (p.counting.refl _)
    rw [hrun] at hfaithful' htraced' hle' hfields
    -- The place that was taken still has its name when it is filled.
    have hi : r'.variantNames[r.variants.length]? = some t.name :=
      getElem?_of_prefix hle'.1.2 Registry.getElem?_variantNames_reserveVariant
    exact ⟨nofun,
      htraced'.fillVariant hown hfaithful'.variantNames hi (hfields fields rfl)⟩
  | absorbed e r' notes' hnew hrun =>
    obtain ⟨⟨-, htraced', -⟩, -, -⟩ := hkeeps _ _ (hreserved hnew) (p.counting.refl _)
    rw [hrun] at htraced'
    -- The resolver has failed, so an unreadable type can be reached from here.
    have hreaches := hfail _ (hreserved hnew) e (congrArg Prod.fst hrun)
    exact ⟨nofun, htraced'.absorb hown hreaches⟩

/-- The handle answers the request, if that is for a variant that is offered. -/
def Delivered (p : Pass) (x : Request) (h : Handle) (s : State) : Prop :=
  ∀ fullName, x = .variant fullName → fullName ∈ p.offered → p.Meant x h s

/-- A way to make requests that leaves a trace supports a pass. -/
theorem supports_of_traces
    (hdone : ∀ x s, (p.tracing underway depth).Inv s → p.Traced underway (ask x s).2.1)
    (hcounting : ∀ x low, Keeps p.counting low (ask x) (p.Delivered x)) :
    Supports (p.tracing underway depth) p.Delivered ask where
  notes := fun _ _ _ _ hr => ⟨hr, p.counting.refl _⟩
  mono := fun x h _ _ hle hx fullName hvariant hoffered =>
    Points.mono hle.1.1 hle.1.2 x h (hx fullName hvariant hoffered)
  answers := fun x low => (hcounting x low).restrict fun s hcount htraced hup =>
    ⟨hdone x s ⟨hcount, htraced⟩, Nat.lt_of_le_of_lt (room_le_of_le hup) htraced.2⟩

theorem keeps_offering_counting (p : Pass) (depth : Nat) (x : Request) (low : State) :
    Keeps p.counting low (p.offering (p.request depth) x) (p.Delivered x) := by
  have hrequest : ∀ x, Keeps p.counting low (p.request depth x) (p.Delivered x) := fun x =>
    (keeps_request_counting p.agrees_refl depth x low).weaken fun _ _ hmeant _ _ _ => hmeant
  cases x with
  | schema fullName => exact hrequest _
  | variant fullName =>
    by_cases hoffered : fullName ∈ p.offered
    · rw [offering_variant hoffered]
      exact hrequest _
    -- What is not offered is not asked for, and nothing has been promised about it.
    · rw [offering, if_neg hoffered]
      refine Keeps.pure fun _ _ _ fullName' hvariant hoffered' => ?_
      cases hvariant
      exact absurd hoffered' hoffered

/-- **Requests leave a trace** and fail with good reason only.  A resolver has taken room from the
requests that its fields make, so the induction is on the depth; without room there is no state to
start from. -/
theorem request_traces (p : Pass) (depth : Nat) (underway : List String) (x : Request) {s : State}
    (hs : (p.tracing underway depth).Inv s) :
    (∀ e, (p.offering (p.request depth) x s).1 = .error e → p.Blames x)
      ∧ p.Traced underway (p.offering (p.request depth) x s).2.1 := by
  induction depth generalizing underway x s with
  | zero => exact absurd hs.2.2 (Nat.not_lt_zero _)
  | succ depth ih =>
    -- A resolver makes its requests while one more variant may be under construction, so all of
    -- this is needed for every list of variants underway.
    have hask : ∀ underway, Supports (p.tracing underway depth) p.Delivered
        (p.offering (p.request depth)) :=
      fun underway => supports_of_traces (fun x s hs => (ih underway x hs).2)
        (p.keeps_offering_counting depth)
    have hresolve : ∀ underway fullName low, Keeps (p.tracing underway depth) low
        (p.flattenWith (p.request depth) fullName) fun fields _ => p.HasFields fullName fields := by
      intro underway fullName low
      rw [← flattenWith_offering]
      exact ((hask underway).keeps_flattenWith p fullName low).weaken fun _ _ h => h.hasFields
    have hfail : ∀ underway fullName, FailsOnlyIf (p.tracing underway depth)
        (p.flattenWith (p.request depth) fullName) (p.ReachesUnreadable fullName) := by
      intro underway fullName
      rw [← flattenWith_offering]
      exact (hask underway).failsOnlyIf_reachesUnreadable
        (fun x s hs e he => (ih underway x hs).1 e he) fullName
    cases x with
    | schema fullName =>
      exact requestSchema_traces (fun low => (hresolve underway fullName low).weaken
        fun _ _ _ => trivial) (hfail underway fullName) hs
    | variant fullName =>
      by_cases hoffered : fullName ∈ p.offered
      · rw [offering_variant hoffered]
        obtain ⟨t, hown, rfl, hlookup⟩ := exists_own_of_mem_offered hoffered
        unfold request
        rw [hlookup]
        exact requestVariant_traces hown hlookup hoffered
          (hresolve (t.name :: underway) t.fullName) (hfail (t.name :: underway) t.fullName) hs
      · rw [offering, if_neg hoffered]
        refine ⟨fun e he => ?_, hs.2.1⟩
        cases he

theorem supports_offering (p : Pass) (underway : List String) (depth : Nat) :
    Supports (p.tracing underway depth) p.Delivered (p.offering (p.request depth)) :=
  supports_of_traces (fun x _ hs => (p.request_traces depth underway x hs).2)
    (p.keeps_offering_counting depth)

theorem failsOnlyIf_offering (p : Pass) (underway : List String) (depth : Nat) (x : Request) :
    FailsOnlyIf (p.tracing underway depth) (p.offering (p.request depth) x) (p.Blames x) :=
  fun _ hs e he => (p.request_traces depth underway x hs).1 e he

theorem tracing_start (p : Pass) : (p.tracing [] p.depthBound).Inv start := by
  obtain ⟨hcounting, -, -, hroom⟩ := finishing_start p
  refine ⟨hcounting, ⟨fun failure h => ?_, fun _ v hv => ?_⟩, hroom⟩
  · cases h
  · cases hv

end Requests

/-! ## §4 Extraction -/

section Extraction

variable {c : Cache}

theorem extractWith_offering (p : Pass) (ask : Request → Run Handle) :
    p.extractWith (p.marked.offering ask) = p.extractWith ask := by
  simp only [extractWith, requestComponentsWith_offering, requestPropertiesWith_offering,
    definitionsWith_offering]

/-- **Extraction leaves a trace**: its variants have unique names, stand for types, and the
component types and the properties types are among them. -/
theorem traced_extract (hbase : p.module.lookup? p.conventions.definitionBase = some t)
    (hextract : (p.extract start).1 = .ok c) :
    ∃ r : Registry, c.variants = r.variants ∧ p.marked.Traced [] r ∧ r.variantNames.Nodup
      ∧ ∀ fullName ∈ p.componentTypes ++ p.propertiesTypes.map (·.fullName),
          ∀ u, p.module.lookup? fullName = some u → u.name ∈ r.variantNames := by
  obtain ⟨names, s₁, s₂, s₃, s₄, hdiscover, hcomponents, hproperties, hdefinitions, -, hvariants,
    -⟩ := extract_eq_ok hbase hextract
  have hask := p.marked.supports_offering [] p.marked.depthBound
  -- The steps make the same requests as if only offered variants could be requested.
  have hkeeps₂ := hask.keeps_requestComponentsWith p.marked s₁
  have hkeeps₃ := hask.keeps_requestPropertiesWith p.marked s₂
  have hkeeps₄ := hask.keeps_definitionsWith p.marked s₃
  rw [requestComponentsWith_offering] at hkeeps₂
  rw [requestPropertiesWith_offering] at hkeeps₃
  rw [definitionsWith_offering] at hkeeps₄
  have hrefl := (p.marked.tracing [] p.marked.depthBound).refl
  obtain ⟨hinv₁, -, -⟩ :=
    (keeps_discover hask.notes p.marked start).of_run p.marked.tracing_start (hrefl _) hdiscover
  obtain ⟨hinv₂, -, hanswers₂⟩ := hkeeps₂.of_run hinv₁ (hrefl _) hcomponents
  obtain ⟨hinv₃, hle₃, hanswers₃⟩ := hkeeps₃.of_run hinv₂ (hrefl _) hproperties
  obtain ⟨hinv₄, hle₄, -⟩ := hkeeps₄.of_run hinv₃ (hrefl _) hdefinitions
  obtain ⟨⟨hfaithful, -⟩, htraced, -⟩ := hinv₄
  refine ⟨s₄.1, hvariants, htraced, hfaithful.variantNames, fun fullName hmem u hlookup => ?_⟩
  -- A variant that was there after the loops is still there after the definitions.
  obtain ⟨h, hdelivered⟩ : ∃ h, p.marked.Delivered (.variant fullName) h s₄ := by
    rcases List.mem_append.1 hmem with hcomponent | hproperty
    · obtain ⟨h, hh⟩ := hanswers₂ fullName hcomponent
      exact ⟨h, hask.mono _ _ _ _ hle₄ (hask.mono _ _ _ _ hle₃ hh)⟩
    · obtain ⟨t', ht', rfl⟩ := List.mem_map.1 hproperty
      obtain ⟨h, hh⟩ := hanswers₃ t' ht'
      exact ⟨h, hask.mono _ _ _ _ hle₄ hh⟩
  -- The handle that was delivered is a place in the arena, whose name is the short name.
  have hpoints : p.marked.Meant (.variant fullName) h s₄ :=
    hdelivered fullName rfl (List.mem_append_left _ hmem)
  rw [Meant, points_variant (p := p.marked) hlookup] at hpoints
  obtain ⟨i, -, hi⟩ := hpoints
  exact List.mem_of_getElem? hi

/-- **Extraction fails with good reason**: a type that is due a definition leads to one that cannot
be read. -/
theorem reachesUnreadable_of_extract {e : IntrospectionError}
    (hextract : (p.extract start).1 = .error e) :
    (p.module.lookup? p.conventions.definitionBase).isSome
      ∧ ∃ t ∈ p.definitionTypes, p.ReachesUnreadable t.fullName := by
  have hask := p.marked.supports_offering [] p.marked.depthBound
  have hfail := p.marked.failsOnlyIf_offering [] p.marked.depthBound
  have hreason := hask.failsOnlyIf_extractWith hfail (fun _ => id) p
    fun t => hask.failsOnlyIf_reachesUnreadable hfail t.fullName
  rw [extractWith_offering] at hreason
  exact hreason start p.marked.tracing_start e hextract

end Extraction

end Pass

end SchemaGraph
