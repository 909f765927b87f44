import SchemaGraph.Proofs.Extraction.Histories

/-!
# The Laws of a Registry

What a user of a registry can rely on, whatever the resolvers do: entries are only added, names are
unique, no resolver runs twice, an answer is final once the schema is built, a failure is final,
and what needs no schema gets none.

- `Lawful`: the laws, about any two events of a history
- `lawful_outcome`: every history obeys them
-/

namespace SchemaGraph

namespace Registry

/-! ## §1 Laws -/

namespace Event

/-- The registry right after the event. -/
def registry (e : Event) : Registry := e.moment.registry

/-- The event is the answer to a request for the schema of a type. -/
def Answers (e : Event) (typeName : String) (answer : Answer) : Prop :=
  ∃ pending before after, e = .answered (.schema typeName) pending before answer after

end Event

/-- What a history obeys.  Later events are those that come to an end later, so a later answer may
be that of a call that encloses the earlier event. -/
structure Lawful (needs : String → Bool) (events : List Event) : Prop where
  /-- Entries are only added, and keep their places and names. -/
  grows : events.Pairwise fun e e' =>
    e.registry.schemaNames <+: e'.registry.schemaNames ∧
      e.registry.variantNames <+: e'.registry.variantNames
  /-- No name occurs twice. -/
  unique : ∀ e ∈ events, e.registry.schemaNames.Nodup ∧ e.registry.variantNames.Nodup
  /-- A handle that is known by name points at the entry of that name. -/
  points : ∀ e ∈ events, ∀ name h,
    (e.registry.schemaHandle? name = some h →
      ∃ s, entryAt? e.registry.schemas h = some s ∧ s.fullName = name) ∧
    (e.registry.variantHandle? name = some h →
      ∃ v, entryAt? e.registry.variants h = some v ∧ v.fullName = name)
  /-- The resolver of an entry starts at most once. -/
  once : (events.filterMap Event.opens?).Nodup
  /-- An answer from outside the construction of a schema is final, and so is the schema. -/
  settled : events.Pairwise fun e e' => ∀ typeName h, e.Answers typeName (.ok h) →
    .schema typeName ∉ e.pending →
    (∀ answer, e'.Answers typeName answer → answer = .ok h) ∧
      entryAt? e'.registry.schemas h = entryAt? e.registry.schemas h
  /-- A failed schema is not known by name. -/
  unknown : ∀ e ∈ events, ∀ typeName err, e.Answers typeName (.error err) →
    e.registry.schemaHandle? typeName = none
  /-- It stays unknown, its resolver does not start again, and later requests fail and change
  nothing. -/
  broken : events.Pairwise fun e e' => ∀ typeName err, e.Answers typeName (.error err) →
    e'.registry.schemaHandle? typeName = none ∧ e'.opens? ≠ some (.schema typeName) ∧
      ∀ pending before answer after,
        e' = .answered (.schema typeName) pending before answer after →
          (∃ err', answer = .error err') ∧ after = before
  /-- A type that needs no schema is answered with no handle and has no entry. -/
  unneeded : ∀ typeName, needs typeName = false → ∀ e ∈ events,
    typeName ∉ e.registry.schemaNames ∧ ∀ answer, e.Answers typeName answer → answer = .ok noHandle

/-! ## §2 Handles from one moment to another -/

variable {needs : String → Bool} {m m' : Moment} {events : List Event} {e e' : Event}
  {typeName : String} {h : Handle} {err : IntrospectionError}

theorem Consistent.points (hm : Consistent needs m) (name : String) (h : Handle) :
    (m.registry.schemaHandle? name = some h →
      ∃ s, entryAt? m.registry.schemas h = some s ∧ s.fullName = name) ∧
    (m.registry.variantHandle? name = some h →
      ∃ v, entryAt? m.registry.variants h = some v ∧ v.fullName = name) := by
  constructor
  · intro hh
    obtain ⟨-, i, hi, rfl⟩ := (schemaHandle?_eq_some hm.schemaNames).1 hh
    simpa [entryAt?_natCast, Registry.schemaNames] using hi
  · intro hh
    -- Variants do not fail, so their names are all that counts.
    obtain ⟨i, hi, rfl⟩ := (variantHandle?_eq_some hm.variantNames).1 hh
    simpa [entryAt?_natCast, Registry.variantNames] using hi

/-- A schema that is known and not under construction stays what it is. -/
theorem Advances.settled_handle (hadv : Advances m m') (hm : Consistent needs m)
    (hm' : Consistent needs m') (hx : .schema typeName ∉ m.pending)
    (hh : m.registry.schemaHandle? typeName = some h) :
    m'.registry.schemaHandle? typeName = some h ∧
      entryAt? m'.registry.schemas h = entryAt? m.registry.schemas h := by
  obtain ⟨hnone, i, hi, rfl⟩ := (schemaHandle?_eq_some hm.schemaNames).1 hh
  have hat : m.registry.HasAt i (.schema typeName) := hi
  refine ⟨(schemaHandle?_eq_some hm'.schemaNames).2 ⟨?_, i, hadv.hasAt hat, rfl⟩, ?_⟩
  · exact hadv.settled typeName (Has.of_hasAt hat) hx hnone
  · obtain ⟨s, hs, rfl⟩ := exists_schema_of_hasAt hat
    rw [entryAt?_natCast, entryAt?_natCast, hs, (hadv.schemas i s hs hx).1]

theorem schemaHandle?_eq_none_of_failure? {r : Registry} (hfailed : r.failure? typeName ≠ none) :
    r.schemaHandle? typeName = none :=
  schemaHandle?_eq_none.2 (.inl hfailed)

/-! ## §3 Answers of a history -/

/-- What the answer to a request for a schema says of the registry right after it. -/
theorem Recorded.answers (hrec : Recorded needs m events) (he : e ∈ events)
    {answer : Answer} (hans : e.Answers typeName answer) :
    (needs typeName = false → answer = .ok noHandle) ∧
      (∀ h, needs typeName = true → answer = .ok h → e.registry.schemaHandle? typeName = some h) ∧
      (∀ err, answer = .error err → e.registry.failure? typeName ≠ none) := by
  obtain ⟨pending, before, after, rfl⟩ := hans
  have hsound := hrec.sound _ _ _ _ _ he
  exact ⟨hsound.unneeded typeName rfl, fun h hneeds hok => hsound.known typeName h rfl hok hneeds,
    fun err herr => hsound.broken typeName err rfl herr⟩

theorem Recorded.settled (hrec : Recorded needs m events) (he : e ∈ events) (he' : e' ∈ events)
    (hadv : Advances e.moment e'.moment) (hans : e.Answers typeName (.ok h))
    (hx : .schema typeName ∉ e.pending) :
    (∀ answer, e'.Answers typeName answer → answer = .ok h) ∧
      entryAt? e'.registry.schemas h = entryAt? e.registry.schemas h := by
  obtain ⟨hunneeded, hknown, -⟩ := hrec.answers he hans
  cases hneeds : needs typeName with
  | false =>
    -- There is no handle, so there is no schema at it, now and later.
    obtain rfl : h = noHandle := Except.ok.inj (hunneeded hneeds)
    exact ⟨fun answer hans' => (hrec.answers he' hans').1 hneeds, rfl⟩
  | true =>
    have hx' : .schema typeName ∉ e.moment.pending := by cases e <;> exact hx
    obtain ⟨hlater, hsame⟩ := hadv.settled_handle (hrec.consistent e he)
      (hrec.consistent e' he') hx' (hknown h hneeds rfl)
    refine ⟨fun answer hans' => ?_, hsame⟩
    obtain ⟨-, hknown', hbroken'⟩ := hrec.answers he' hans'
    cases answer with
    | ok h' => exact congrArg _ (Option.some.inj ((hknown' h' hneeds rfl).symm.trans hlater))
    | error err =>
      -- The schema is known by then, so it has not failed.
      have hnone := schemaHandle?_eq_none_of_failure? (hbroken' err rfl)
      exact absurd (hnone.symm.trans hlater) (by simp)

theorem Recorded.broken (hrec : Recorded needs m events) (he : e ∈ events) (he' : e' ∈ events)
    (hadv : Advances e.moment e'.moment) (hprecedes : e.Precedes e')
    (hans : e.Answers typeName (.error err)) :
    e'.registry.schemaHandle? typeName = none ∧ e'.opens? ≠ some (.schema typeName) ∧
      ∀ pending before answer after,
        e' = .answered (.schema typeName) pending before answer after →
          (∃ err', answer = .error err') ∧ after = before := by
  obtain ⟨recorded, hfailed⟩ := Option.ne_none_iff_exists'.1 ((hrec.answers he hans).2.2 err rfl)
  have hfailed' := hadv.failed typeName recorded hfailed
  refine ⟨schemaHandle?_eq_none_of_failure? (by simp [Event.registry, hfailed']), ?_, ?_⟩
  · -- An entry is under construction while its resolver starts.
    intro hopens
    have hpending : .schema typeName ∈ e'.moment.pending := by
      cases e' <;> exact hrec.running _ he' _ hopens
    exact ((hrec.consistent e' he').failed typeName recorded hfailed').2 hpending
  · rintro pending before answer after rfl
    -- A later call is answered with what was recorded, without another resolver.
    rcases hprecedes _ _ _ _ _ rfl with hadv' | hpending
    · have hcall : before.answer? needs (.schema typeName) = some (.error recorded) := by
        simp [answer?, hadv'.failed typeName recorded hfailed]
      obtain ⟨rfl, rfl⟩ := (hrec.sound _ _ _ _ _ he').direct _ hcall
      exact ⟨⟨recorded, rfl⟩, rfl⟩
    · -- The type cannot fail while it is still under construction.
      have hpending' : .schema typeName ∈ e.moment.pending := by cases e <;> exact hpending
      exact absurd hpending' ((hrec.consistent e he).failed typeName recorded hfailed).2

theorem Recorded.unneeded (hrec : Recorded needs m events) (he : e ∈ events)
    (hneeds : needs typeName = false) :
    typeName ∉ e.registry.schemaNames
      ∧ ∀ answer, e.Answers typeName answer → answer = .ok noHandle := by
  refine ⟨fun hmem => ?_, fun answer hans => (hrec.answers he hans).1 hneeds⟩
  simp [(hrec.consistent e he).needed typeName hmem] at hneeds

/-- **Recorded histories are lawful.** -/
theorem Recorded.lawful (hrec : Recorded needs m events) : Lawful needs events where
  grows := hrec.ordered.imp fun hadv => ⟨hadv.1.schemaNames, hadv.1.variantNames⟩
  unique := fun e he => ⟨(hrec.consistent e he).schemaNames, (hrec.consistent e he).variantNames⟩
  points := fun e he => (hrec.consistent e he).points
  once := hrec.once
  settled := hrec.ordered.imp_of_mem fun he he' hadv _ _ => hrec.settled he he' hadv.1
  unknown := fun _ he _ err hans =>
    schemaHandle?_eq_none_of_failure? ((hrec.answers he hans).2.2 err rfl)
  broken := hrec.ordered.imp_of_mem fun he he' hadv _ _ => hrec.broken he he' hadv.1 hadv.2
  unneeded := fun _ hneeds _ he => hrec.unneeded he hneeds

/-- **Registries are lawful**: for any calls with any resolvers, nested in any way and failing or
not, what happens from the empty registry on obeys the laws. -/
theorem lawful_outcome (needs : String → Bool) (calls : List (Call × Resolver)) :
    Lawful needs (outcome needs calls).2.events :=
  (sane_outcome needs calls).recorded.lawful

end Registry

end SchemaGraph
