import SchemaGraph.Proofs.Extraction.Names
import SchemaGraph.Proofs.Extraction.Resolvers
import SchemaGraph.Proofs.Model.Arena

/-!
# Histories of a Registry

Whatever resolvers do, the history of a registry is sane.  At each moment there is a stack of
entries under construction, every other entry is settled for good, or has failed for good, and
moments only advance: what is settled does not change, and names keep their places.

A request that starts a resolver encloses everything that the resolver does, so of two answers the
later one may belong to a call that was made before the earlier one.  The laws of a history keep
these two cases apart: a call was made after an event, or its entry is under construction during
that event.

- `Consistent`, `Advances`: one moment, and one moment after another
- `Recorded.note`: what one event adds to a history
- `Sane.answer`, `Sane.start`, `Sane.finish`: what one step keeps
- `sane_outcome`: what holds after any calls, by induction on the steps
-/

namespace SchemaGraph

namespace Registry

/-! ## §1 Entries and places -/

/-- There is an entry of the name. -/
def Has (r : Registry) : Entry → Prop
  | .schema typeName => typeName ∈ r.schemaNames
  | .variant shortName => shortName ∈ r.variantNames

/-- The entry has the place. -/
def HasAt (r : Registry) (i : Nat) : Entry → Prop
  | .schema typeName => r.schemaNames[i]? = some typeName
  | .variant shortName => r.variantNames[i]? = some shortName

variable {needs : String → Bool} {r r' : Registry} {call : Call} {x : Entry}
  {typeName shortName : String} {h : Handle} {i : Nat} {result : Ending}

/-- A call that cannot be answered at once is about a new entry. -/
theorem not_has_of_answer?_eq_none (hcall : r.answer? needs call = none) : ¬ r.Has call.entry := by
  cases call with
  | schema typeName =>
    unfold answer? at hcall
    cases hfailure : r.failure? typeName with
    | some e => simp [hfailure] at hcall
    | none =>
      cases hhandle : r.schemaHandle? typeName with
      | some h => simp [hfailure, hhandle] at hcall
      | none => simpa [hfailure, Has, Call.entry] using schemaHandle?_eq_none.1 hhandle
  | variant typeName shortName isSpecialKind =>
    -- Variants are looked up by their short names only.
    simpa [answer?, variantHandle?_eq_none, Has, Call.entry] using hcall

theorem needs_of_answer?_eq_none (hcall : r.answer? needs (.schema typeName) = none) :
    needs typeName = true := by
  unfold answer? at hcall
  cases hfailure : r.failure? typeName with
  | some e => simp [hfailure] at hcall
  | none => cases hhandle : r.schemaHandle? typeName <;> simp_all

@[simp] theorem schemaNames_reserve : (r.reserve call).schemaNames =
    r.schemaNames ++ match call with
      | .schema typeName => [typeName]
      | .variant .. => [] := by
  cases call <;> simp [reserve]

@[simp] theorem variantNames_reserve : (r.reserve call).variantNames =
    r.variantNames ++ match call with
      | .schema _ => []
      | .variant _ shortName _ => [shortName] := by
  cases call <;> simp [reserve]

@[simp] theorem schemaNames_close : (r.close i call result).schemaNames = r.schemaNames := by
  cases call <;> cases result <;> simp [close]

@[simp] theorem variantNames_close : (r.close i call result).variantNames = r.variantNames := by
  cases call <;> cases result <;> simp [close]

theorem has_reserve : (r.reserve call).Has x ↔ r.Has x ∨ x = call.entry := by
  cases call <;> cases x <;> simp [Has, Call.entry]

theorem Has.of_hasAt (hat : r.HasAt i x) : r.Has x := by
  cases x <;> exact List.mem_of_getElem? hat

theorem exists_schema_of_hasAt (hat : r.HasAt i (.schema typeName)) :
    ∃ s, r.schemas[i]? = some s ∧ s.fullName = typeName := by
  simpa [HasAt, schemaNames] using hat

theorem hasAt_reserve : (r.reserve call).HasAt (r.place call) call.entry := by
  cases call with
  | schema typeName => exact getElem?_schemaNames_reserveSchema
  | variant typeName shortName isSpecialKind => exact getElem?_variantNames_reserveVariant

theorem has_close : (r.close i call result).Has x ↔ r.Has x := by
  cases x <;> simp [Has]

theorem failure?_reserve : (r.reserve call).failure? typeName = r.failure? typeName := by
  cases call <;> rfl

theorem failure?_close :
    (r.close i call result).failure? typeName =
      match call, result with
      | .schema failed, .error e =>
        if typeName = failed then some ⟨failed, e.message⟩ else r.failure? typeName
      | _, _ => r.failure? typeName := by
  cases call <;> cases result <;> try rfl
  simp only [close, recordFailure, failure?, List.lookup_cons]
  split <;> simp_all

theorem failure?_close_ne_none :
    (r.close i call result).failure? typeName ≠ none ↔
      r.failure? typeName ≠ none ∨ call = .schema typeName ∧ ∃ e, .error e = result := by
  rw [failure?_close]
  cases call with
  | variant => cases result <;> simp
  | schema failed =>
    cases result with
    | ok fields => simp
    | error e => by_cases hname : typeName = failed <;> simp [hname, eq_comm]

/-! ## §2 Moments -/

/-- A registry with the entries under construction. -/
structure Moment where
  registry : Registry
  pending : List Entry

/-- Names are unique, and an entry under construction has a place and has not failed. -/
structure Consistent (needs : String → Bool) (m : Moment) : Prop where
  schemaNames : m.registry.schemaNames.Nodup
  variantNames : m.registry.variantNames.Nodup
  needed : ∀ typeName, m.registry.Has (.schema typeName) → needs typeName = true
  placed : ∀ x ∈ m.pending, m.registry.Has x
  failed : ∀ typeName e, m.registry.failure? typeName = some e →
    m.registry.Has (.schema typeName) ∧ .schema typeName ∉ m.pending
  hollow : ∀ s ∈ m.registry.schemas,
    .schema s.fullName ∈ m.pending ∨ m.registry.failure? s.fullName ≠ none → s.fields = []

/-- Names keep their places, and schemas that are not under construction stay as they are. -/
structure Advances (m m' : Moment) : Prop where
  schemaNames : m.registry.schemaNames <+: m'.registry.schemaNames
  variantNames : m.registry.variantNames <+: m'.registry.variantNames
  schemas : ∀ (i : Nat) s, m.registry.schemas[i]? = some s → .schema s.fullName ∉ m.pending →
    m'.registry.schemas[i]? = some s ∧ .schema s.fullName ∉ m'.pending
  failed : ∀ typeName e, m.registry.failure? typeName = some e →
    m'.registry.failure? typeName = some e
  settled : ∀ typeName, m.registry.Has (.schema typeName) → .schema typeName ∉ m.pending →
    m.registry.failure? typeName = none → m'.registry.failure? typeName = none

variable {m m' m'' : Moment} {stack : List Entry}

/-- A schema under construction has not failed yet. -/
theorem Consistent.failure?_of_pending (hm : Consistent needs m)
    (hx : .schema typeName ∈ m.pending) : m.registry.failure? typeName = none := by
  by_contra hsome
  obtain ⟨e, he⟩ := Option.ne_none_iff_exists'.1 hsome
  exact (hm.failed typeName e he).2 hx

/-- So it is known by name, and whoever requests it is answered its place. -/
theorem Consistent.known_of_pending (hm : Consistent needs m)
    (hx : .schema typeName ∈ m.pending) :
    ∃ i : Nat, m.registry.HasAt i (.schema typeName) ∧
      m.registry.schemaHandle? typeName = some (i : Int) := by
  obtain ⟨i, hi⟩ := List.mem_iff_getElem?.1 (hm.placed _ hx)
  exact ⟨i, hi, (schemaHandle?_eq_some hm.schemaNames).2 ⟨hm.failure?_of_pending hx, i, hi, rfl⟩⟩

theorem Advances.refl (m : Moment) : Advances m m where
  schemaNames := List.prefix_refl _
  variantNames := List.prefix_refl _
  schemas := fun _ _ hs hx => ⟨hs, hx⟩
  failed := fun _ _ h => h
  settled := fun _ _ _ h => h

theorem Advances.has (hadv : Advances m m') (hx : m.registry.Has x) : m'.registry.Has x := by
  cases x with
  | schema typeName => exact hadv.schemaNames.subset hx
  | variant shortName => exact hadv.variantNames.subset hx

theorem Advances.trans (h : Advances m m') (h' : Advances m' m'') : Advances m m'' where
  schemaNames := h.schemaNames.trans h'.schemaNames
  variantNames := h.variantNames.trans h'.variantNames
  schemas := fun i s hs hx =>
    let ⟨hs', hx'⟩ := h.schemas i s hs hx
    h'.schemas i s hs' hx'
  failed := fun typeName e he => h'.failed typeName e (h.failed typeName e he)
  settled := fun typeName hmem hx hnone => by
    -- The entry is not under construction in between either, as its schema tells.
    obtain ⟨i, hat⟩ := List.mem_iff_getElem?.1 hmem
    obtain ⟨s, hs, rfl⟩ := exists_schema_of_hasAt hat
    obtain ⟨-, hx'⟩ := h.schemas i s hs hx
    exact h'.settled _ (h.has hmem) hx' (h.settled _ hmem hx hnone)

theorem Advances.hasAt (hadv : Advances m m') (hat : m.registry.HasAt i x) :
    m'.registry.HasAt i x := by
  cases x with
  | schema typeName => exact getElem?_of_prefix hadv.schemaNames hat
  | variant shortName => exact getElem?_of_prefix hadv.variantNames hat

/-! ## §3 Opening and closing an entry -/

theorem Advances.reserve (hcall : r.answer? needs call = none) :
    Advances ⟨r, stack⟩ ⟨r.reserve call, call.entry :: stack⟩ where
  schemaNames := by simp
  variantNames := by simp
  schemas := by
    intro i s hs hx
    have hname : r.Has (.schema s.fullName) :=
      List.mem_map_of_mem (List.mem_of_getElem? hs)
    refine ⟨?_, ?_⟩
    · cases call with
      | schema typeName =>
        exact (List.getElem?_append_left (List.getElem?_eq_some_iff.1 hs).1).trans hs
      | variant => exact hs
    · -- The new entry is none that has a place already.
      rw [List.mem_cons, not_or]
      exact ⟨fun heq => not_has_of_answer?_eq_none hcall (heq ▸ hname), hx⟩
  -- Failures and settled types are those of before, since nothing has been closed.
  failed := fun typeName e he => by rwa [failure?_reserve]
  settled := fun typeName _ _ hnone => by rwa [failure?_reserve]

theorem Consistent.reserve (hm : Consistent needs ⟨r, stack⟩)
    (hcall : r.answer? needs call = none) :
    Consistent needs ⟨r.reserve call, call.entry :: stack⟩ := by
  have hnew := not_has_of_answer?_eq_none hcall
  -- A type that has failed has an entry, which is not the one that is made now.
  have hfailed : ∀ typeName e, (r.reserve call).failure? typeName = some e →
      (r.reserve call).Has (.schema typeName) ∧ .schema typeName ∉ call.entry :: stack := by
    intro typeName e he
    rw [failure?_reserve] at he
    obtain ⟨hmem, hx⟩ := hm.failed typeName e he
    refine ⟨has_reserve.2 (.inl hmem), ?_⟩
    rw [List.mem_cons, not_or]
    exact ⟨fun heq => hnew (heq ▸ hmem), hx⟩
  -- The entries under construction all have their places, the new one last.
  have hplaced : ∀ x ∈ call.entry :: stack, (r.reserve call).Has x := by
    intro x hx
    rcases List.mem_cons.1 hx with rfl | hx
    · exact has_reserve.2 (.inr rfl)
    · exact has_reserve.2 (.inl (hm.placed x hx))
  -- An entry is made only for a type that needs one.
  have hneeded : ∀ typeName, (r.reserve call).Has (.schema typeName) → needs typeName = true := by
    intro typeName hmem
    rcases has_reserve.1 hmem with hmem | heq
    · exact hm.needed typeName hmem
    · cases call with
      | variant => cases heq
      | schema =>
        cases heq
        exact needs_of_answer?_eq_none hcall
  cases call with
  | schema typeName =>
    refine ⟨?_, ?_, hneeded, hplaced, hfailed, ?_⟩
    · -- The new name is not among the old ones.
      rw [schemaNames_reserve]
      exact hm.schemaNames.append (List.nodup_singleton _) (List.disjoint_singleton.2 hnew)
    · simpa using hm.variantNames
    · -- An old schema is not that of the new entry, and the new one is a placeholder.
      intro s hs hx
      rcases List.mem_append.1 hs with hs | hs
      · refine hm.hollow s hs ?_
        rw [List.mem_cons, or_assoc, failure?_reserve] at hx
        refine hx.resolve_left fun heq => hnew ?_
        rw [← heq]
        exact List.mem_map_of_mem hs
      · obtain rfl := List.mem_singleton.1 hs
        rfl
  | variant typeName shortName isSpecialKind =>
    refine ⟨?_, ?_, hneeded, hplaced, hfailed, ?_⟩
    · simpa using hm.schemaNames
    · rw [variantNames_reserve]
      exact hm.variantNames.append (List.nodup_singleton _) (List.disjoint_singleton.2 hnew)
    · intro s hs hx
      rw [failure?_reserve] at hx
      exact hm.hollow s hs (by simpa [Call.entry] using hx)

theorem failure?_close_of_ne (hne : x ≠ call.entry) (hx : x = .schema typeName) :
    (r.close i call result).failure? typeName = r.failure? typeName := by
  subst hx
  rw [failure?_close]
  cases call <;> cases result <;> simp_all [Call.entry]

theorem schemas_close_of_ne {j : Nat} {s : Schema} (hat : r.HasAt i call.entry)
    (hne : .schema s.fullName ≠ call.entry) :
    (r.close i call result).schemas[j]? = some s ↔ r.schemas[j]? = some s := by
  cases call <;> cases result <;> try exact Iff.rfl
  next typeName fields =>
    simp only [Registry.close, fillSchema, List.getElem?_modify]
    split
    next heq =>
      -- The schema at the place has the name of the entry, so it is not this one.
      subst heq
      obtain ⟨t, ht, rfl⟩ := exists_schema_of_hasAt hat
      constructor
      · intro hs
        simp only [ht, Option.map_eq_map, Option.map_some, Option.some.injEq] at hs
        exact absurd (by rw [← hs]; rfl) hne
      · intro hs
        rw [ht] at hs
        exact absurd (by rw [← Option.some.inj hs]; rfl) hne
    -- At another place nothing has changed.
    next => simp

theorem Advances.close (hm : Consistent needs ⟨r, call.entry :: stack⟩)
    (hat : r.HasAt i call.entry) :
    Advances ⟨r, call.entry :: stack⟩ ⟨r.close i call result, stack⟩ where
  schemaNames := by simp
  variantNames := by simp
  schemas := by
    intro j s hs hx
    -- The entry leaves the stack, so only the others are still under construction.
    rw [List.mem_cons, not_or] at hx
    exact ⟨(schemas_close_of_ne hat hx.1).2 hs, hx.2⟩
  failed := by
    intro typeName e he
    have hx := (hm.failed typeName e he).2
    rw [List.mem_cons, not_or] at hx
    rwa [failure?_close_of_ne hx.1 rfl]
  settled := by
    intro typeName _ hx hnone
    rw [List.mem_cons, not_or] at hx
    rwa [failure?_close_of_ne hx.1 rfl]

/-- An entry that has failed by the time it is closed has no fields. -/
theorem hollow_close (hm : Consistent needs ⟨r, call.entry :: stack⟩) {s : Schema}
    (hs : s ∈ (r.close i call result).schemas) (heq : .schema s.fullName = call.entry)
    (hfailed : (r.close i call result).failure? s.fullName ≠ none) : s.fields = [] := by
  -- Before it was closed the type had not failed, so the failure is that of its resolver.
  have hnone : r.failure? s.fullName = none :=
    hm.failure?_of_pending (heq ▸ List.mem_cons_self)
  cases call with
  | variant => cases heq
  | schema typeName =>
    cases result with
    | ok fields =>
      rw [failure?_close] at hfailed
      exact absurd hnone hfailed
    | error e => exact hm.hollow s hs (.inl (heq ▸ List.mem_cons_self))

theorem Consistent.close (hm : Consistent needs ⟨r, call.entry :: stack⟩)
    (hat : r.HasAt i call.entry) (hnew : call.entry ∉ stack) :
    Consistent needs ⟨r.close i call result, stack⟩ where
  schemaNames := by simpa using hm.schemaNames
  variantNames := by simpa using hm.variantNames
  needed := fun typeName hmem => hm.needed typeName (has_close.1 hmem)
  placed := fun x hx => has_close.2 (hm.placed x (List.mem_cons_of_mem _ hx))
  failed := by
    intro typeName e he
    -- The closed entry is settled now; all others have failed before or not at all.
    by_cases heq : .schema typeName = call.entry
    · exact ⟨has_close.2 (heq ▸ Has.of_hasAt hat), heq ▸ hnew⟩
    · rw [failure?_close_of_ne heq rfl] at he
      obtain ⟨hmem, hx⟩ := hm.failed typeName e he
      exact ⟨has_close.2 hmem, fun hmem' => hx (List.mem_cons_of_mem _ hmem')⟩
  hollow := by
    intro s hs hx
    -- A schema with fields was filled, and so it has not failed.
    by_cases heq : .schema s.fullName = call.entry
    · exact hollow_close hm hs heq (hx.resolve_left (heq ▸ hnew))
    · obtain ⟨j, hj⟩ := List.mem_iff_getElem?.1 hs
      have hold := List.mem_of_getElem? ((schemas_close_of_ne hat heq).1 hj)
      rw [failure?_close_of_ne heq rfl] at hx
      exact hm.hollow s hold (hx.imp_left (List.mem_cons_of_mem _))

/-! ## §4 Recorded events -/

namespace Event

/-- The entries under construction during the event. -/
def pending : Event → List Entry
  | .opened _ pending _ => pending
  | .closed _ pending _ _ _ => pending
  | .answered _ pending _ _ _ => pending

/-- The moment right after the event. -/
def moment : Event → Moment
  | .opened _ pending registry => ⟨registry, pending⟩
  | .closed _ pending _ _ registry => ⟨registry, pending⟩
  | .answered _ pending _ _ after => ⟨after, pending⟩

/-- The entry whose resolver starts. -/
def opens? : Event → Option Entry
  | .opened call _ _ => some call.entry
  | _ => none

/-- Nothing happens between the event and the call that is answered by `later`, but resolvers of
other entries; or the event happens while the resolver of the called entry runs. -/
def Precedes (e later : Event) : Prop :=
  ∀ call pending before answer after, later = .answered call pending before answer after →
    Advances e.moment ⟨before, pending⟩ ∨ call.entry ∈ e.pending

/-- What an answer says of the registry that it leaves. -/
structure Sound (needs : String → Bool) (call : Call) (before : Registry) (answer : Answer)
    (after : Registry) : Prop where
  direct : ∀ a, before.answer? needs call = some a → answer = a ∧ after = before
  unneeded : ∀ typeName, call = .schema typeName → needs typeName = false → answer = .ok noHandle
  known : ∀ typeName h, call = .schema typeName → answer = .ok h → needs typeName = true →
    after.schemaHandle? typeName = some h
  broken : ∀ typeName e, call = .schema typeName → answer = .error e →
    after.failure? typeName ≠ none

end Event

/-- What holds of all the events until now. -/
structure Recorded (needs : String → Bool) (now : Moment) (events : List Event) : Prop where
  consistent : ∀ e ∈ events, Consistent needs e.moment
  reached : ∀ e ∈ events, Advances e.moment now
  ordered : events.Pairwise fun e e' => Advances e.moment e'.moment ∧ e.Precedes e'
  sound : ∀ call pending before answer after, .answered call pending before answer after ∈ events →
    Event.Sound needs call before answer after
  running : ∀ e ∈ events, ∀ x, e.opens? = some x → x ∈ e.pending
  once : (events.filterMap Event.opens?).Nodup
  placed : ∀ x ∈ events.filterMap Event.opens?, now.registry.Has x

variable {events : List Event} {e : Event}

theorem Recorded.advance (hrec : Recorded needs m events) (hadv : Advances m m') :
    Recorded needs m' events where
  consistent := hrec.consistent
  reached := fun e he => (hrec.reached e he).trans hadv
  ordered := hrec.ordered
  sound := hrec.sound
  running := hrec.running
  once := hrec.once
  placed := fun x hx => hadv.has (hrec.placed x hx)

/-- **One more event**, at the present moment. -/
theorem Recorded.note (hrec : Recorded needs e.moment events) (hm : Consistent needs e.moment)
    (hprecedes : ∀ e' ∈ events, e'.Precedes e)
    (hsound : ∀ call pending before answer after, e = .answered call pending before answer after →
      Event.Sound needs call before answer after)
    (hopens : ∀ x, e.opens? = some x → x ∉ events.filterMap Event.opens? ∧ x ∈ e.pending) :
    Recorded needs e.moment (events ++ [e]) where
  consistent := by simpa [or_imp, forall_and] using ⟨hrec.consistent, hm⟩
  reached := by simpa [or_imp, forall_and] using ⟨hrec.reached, Advances.refl _⟩
  ordered := by
    refine List.pairwise_append.2 ⟨hrec.ordered, List.pairwise_singleton _ _, ?_⟩
    intro e' he' e'' he''
    obtain rfl := List.mem_singleton.1 he''
    exact ⟨hrec.reached e' he', hprecedes e' he'⟩
  sound := by
    intro call pending before answer after hmem
    rcases List.mem_append.1 hmem with hmem | hmem
    · exact hrec.sound _ _ _ _ _ hmem
    · exact hsound _ _ _ _ _ (List.mem_singleton.1 hmem).symm
  running := by
    intro e' he' x hx
    rcases List.mem_append.1 he' with he' | he'
    · exact hrec.running e' he' x hx
    · obtain rfl := List.mem_singleton.1 he'
      exact (hopens x hx).2
  once := by
    -- Only the start of a resolver opens an entry.
    cases hx : e.opens? with
    | none => simpa [hx] using hrec.once
    | some x =>
      -- The resolver that starts is none of those that have started before.
      rw [List.filterMap_append, List.nodup_append]
      refine ⟨hrec.once, by simp [hx], ?_⟩
      intro y hy z hz heq
      have hz' : z = x := by simpa [hx] using hz
      exact (hopens x hx).1 (hz' ▸ heq ▸ hy)
  placed := by
    intro x hx
    rw [List.filterMap_append, List.mem_append] at hx
    rcases hx with hx | hx
    · exact hrec.placed x hx
    · have hpending : x ∈ e.moment.pending := by
        cases e <;> exact (hopens x (by simpa using hx)).2
      exact hm.placed x hpending

/-! ## §5 Stages -/

/-- The moment of a stage. -/
def now (s : Stage) : Moment := ⟨s.1, entries s.2.frames⟩

/-- A resolver runs for a call that could not be answered at once.  Its entry has the place that it
took then, and whatever was not before the call happened during the run. -/
structure Frame.Sits (needs : String → Bool) (r : Registry) (events : List Event) (f : Frame)
    (fs : List Frame) : Prop where
  new : f.before.answer? needs f.call = none
  hasAt : r.HasAt (f.before.place f.call) f.call.entry
  apart : f.call.entry ∉ entries fs
  since : ∀ e ∈ events, Advances e.moment ⟨f.before, entries fs⟩ ∨ f.call.entry ∈ e.pending

/-- Every frame sits on those below it. -/
def Framed (needs : String → Bool) (r : Registry) (events : List Event) : List Frame → Prop
  | [] => True
  | f :: fs => f.Sits needs r events fs ∧ Framed needs r events fs

/-- **The invariant** of all stages. -/
structure Sane (needs : String → Bool) (s : Stage) : Prop where
  consistent : Consistent needs (now s)
  recorded : Recorded needs (now s) s.2.events
  framed : Framed needs s.1 s.2.events s.2.frames

variable {f : Frame} {fs frames : List Frame}

/-- Frames stay while names keep their places and events happen above them. -/
theorem Framed.mono (hframed : Framed needs r events frames) {new : List Event}
    (hat : ∀ i x, r.HasAt i x → r'.HasAt i x)
    (hnew : ∀ e ∈ new, ∀ x ∈ entries frames, x ∈ e.pending) :
    Framed needs r' (events ++ new) frames := by
  induction frames with
  | nil => trivial
  | cons f fs ih =>
    obtain ⟨hsits, hrest⟩ := hframed
    -- Each frame sits as before: the new events happen while all its entries are pending.
    refine ⟨⟨hsits.new, hat _ _ hsits.hasAt, hsits.apart, fun e he => ?_⟩, ih hrest ?_⟩
    · rcases List.mem_append.1 he with he | he
      · exact hsits.since e he
      · exact .inr (hnew e he _ List.mem_cons_self)
    · exact fun e he x hx => hnew e he x (List.mem_cons_of_mem _ hx)

section Answered

variable {h : History} {before after : Registry} {answer : Answer}

theorem entries_answered :
    entries (h.answered call before answer after).frames = entries h.frames := by
  obtain ⟨_ | _, _⟩ := h <;> rfl

theorem now_answered : now (r, h.answered call before answer after) = now (r, h) :=
  congrArg (Moment.mk r) entries_answered

theorem now_finished : now (finished r f fs events result) =
    ⟨r.close (f.before.place f.call) f.call result, entries fs⟩ :=
  now_answered

theorem framed_answered :
    Framed needs r events (h.answered call before answer after).frames ↔
      Framed needs r events h.frames := by
  obtain ⟨_ | ⟨f, fs⟩, _⟩ := h
  · rfl
  · exact and_congr_left fun _ => ⟨fun ⟨h₁, h₂, h₃, h₄⟩ => ⟨h₁, h₂, h₃, h₄⟩,
      fun ⟨h₁, h₂, h₃, h₄⟩ => ⟨h₁, h₂, h₃, h₄⟩⟩

end Answered

theorem sane_start : Sane needs ({}, {}) where
  consistent := by
    constructor <;> simp [now, entries, schemaNames, variantNames, Has, failure?]
  recorded := by
    constructor <;> simp
  framed := trivial

theorem Consistent.sound_answer {a : Answer} {stack : List Entry}
    (hm : Consistent needs ⟨r, stack⟩) (hcall : r.answer? needs call = some a) :
    Event.Sound needs call r a r where
  direct := fun a' ha' => ⟨Option.some.inj (hcall.symm.trans ha'), rfl⟩
  unneeded := by
    rintro typeName rfl hneeds
    -- A schema that is not needed has no entry, so it cannot have failed either.
    have hnot : ¬ r.Has (.schema typeName) := fun hmem => by
      simp [hm.needed typeName hmem] at hneeds
    have hfailure : r.failure? typeName = none := by
      by_contra hsome
      obtain ⟨e, he⟩ := Option.ne_none_iff_exists'.1 hsome
      exact hnot (hm.failed typeName e he).1
    have hhandle : r.schemaHandle? typeName = none := schemaHandle?_eq_none.2 (.inr hnot)
    simpa [answer?, hfailure, hhandle, hneeds, eq_comm] using hcall
  known := by
    -- The look-ups decide all: a known schema is answered with its place.
    rintro typeName h rfl rfl hneeds
    cases hfailure : r.failure? typeName <;> cases hhandle : r.schemaHandle? typeName <;>
      simp_all [answer?]
  broken := by
    rintro typeName e rfl rfl
    cases hfailure : r.failure? typeName <;> cases hhandle : r.schemaHandle? typeName <;>
      simp_all [answer?]

theorem Consistent.sound_close {before : Registry} {stack : List Entry}
    (hclosed : Consistent needs ⟨r.close i call result, stack⟩)
    (hm : Consistent needs ⟨r, call.entry :: stack⟩) (hat : r.HasAt i call.entry)
    (hnew : before.answer? needs call = none) :
    Event.Sound needs call before (conclude i call result) (r.close i call result) where
  direct := fun a ha => by simp [hnew] at ha
  unneeded := by
    rintro typeName rfl hneeds
    simp [needs_of_answer?_eq_none hnew] at hneeds
  known := by
    rintro typeName h rfl hanswer -
    cases result with
    | error e => cases hanswer
    | ok fields =>
      cases hanswer
      refine (schemaHandle?_eq_some hclosed.schemaNames).2 ⟨?_, i, ?_, rfl⟩
      · -- The entry was under construction until now, so it cannot have failed.
        rw [failure?_close]
        exact hm.failure?_of_pending List.mem_cons_self
      · rw [schemaNames_close]
        exact hat
  broken := by
    rintro typeName e rfl hanswer
    -- The failure that is answered is the one that closing has recorded.
    cases result with
    | ok fields => cases hanswer
    | error e => simp [failure?_close]

theorem Sane.answer {h : History} {a : Answer}
    (hs : Sane needs (r, h)) (hcall : r.answer? needs call = some a) :
    Sane needs (r, h.answered call r a r) := by
  have hnow : now (r, h.answered call r a r) = now (r, h) := now_answered
  refine ⟨hnow ▸ hs.consistent, hnow ▸ ?_, ?_⟩
  -- The moment is still the same, so the event goes at the end of the record.
  · refine Recorded.note (e := .answered call (entries h.frames) r a r) hs.recorded hs.consistent
      (fun e he => ?_) ?_ ?_
    · rintro _ _ _ _ _ ⟨⟩
      exact .inl (hs.recorded.reached e he)
    · rintro _ _ _ _ _ ⟨⟩
      exact hs.consistent.sound_answer hcall
    · simp [Event.opens?]
  · rw [framed_answered]
    exact hs.framed.mono (fun _ _ hat => hat) (by simp [Event.pending])

/-- The resolver of a new entry starts on top of the others. -/
theorem Sane.start {h : History} (hs : Sane needs (r, h)) (hcall : r.answer? needs call = none) :
    Sane needs (r.reserve call, h.opened call r) := by
  have hnew := not_has_of_answer?_eq_none hcall
  have hconsistent := hs.consistent.reserve hcall
  have hadvances : Advances (now (r, h)) ⟨r.reserve call, call.entry :: entries h.frames⟩ :=
    Advances.reserve hcall
  have hrecorded : Recorded needs ⟨r.reserve call, call.entry :: entries h.frames⟩
      (h.opened call r).events := by
    -- The event tells of an entry that has not been opened before.
    refine Recorded.note (e := .opened call (call.entry :: entries h.frames) (r.reserve call))
      (hs.recorded.advance hadvances) hconsistent ?_ ?_ ?_
    · rintro e - _ _ _ _ _ ⟨⟩
    · rintro _ _ _ _ _ ⟨⟩
    · rintro x ⟨⟩
      exact ⟨fun hx => hnew (hs.recorded.placed _ hx), List.mem_cons_self⟩
  refine ⟨hconsistent, hrecorded, ⟨hcall, hasAt_reserve, ?_, ?_⟩, ?_⟩
  · exact fun hx => hnew (hs.consistent.placed _ hx)
  · -- All events but the start of the resolver itself come before the call.
    intro e he
    rcases List.mem_append.1 he with he | he
    · exact .inl (hs.recorded.reached e he)
    · obtain rfl := List.mem_singleton.1 he
      exact .inr List.mem_cons_self
  -- The resolver starts while all entries below it are under construction.
  · refine hs.framed.mono (fun i x hx => hadvances.hasAt hx) ?_
    intro e he x hx
    obtain rfl := List.mem_singleton.1 he
    exact List.mem_cons_of_mem _ hx

theorem Sane.finish (hs : Sane needs (r, ⟨f :: fs, events⟩)) :
    Sane needs (finished r f fs events result) := by
  obtain ⟨hsits, hframed⟩ := hs.framed
  have hconsistent : Consistent needs ⟨r, f.call.entry :: entries fs⟩ := hs.consistent
  have hclosed : Consistent needs ⟨r.close (f.before.place f.call) f.call result, entries fs⟩ :=
    hconsistent.close hsits.hasAt hsits.apart
  have hadvances : Advances ⟨r, f.call.entry :: entries fs⟩
      ⟨r.close (f.before.place f.call) f.call result, entries fs⟩ :=
    Advances.close hconsistent hsits.hasAt
  -- First the end of the resolver is noted, while the entry is still under construction.
  have hended : Recorded needs ⟨r, f.call.entry :: entries fs⟩
      (events ++ [.closed f.call (entries (f :: fs)) f.granted result r]) := by
    refine Recorded.note (e := .closed f.call (entries (f :: fs)) f.granted result r) hs.recorded
      hconsistent ?_ ?_ ?_
    · rintro e - _ _ _ _ _ ⟨⟩
    · rintro _ _ _ _ _ ⟨⟩
    · simp [Event.opens?]
  -- Then the answer is noted, when it is not any more.
  have hanswered := Recorded.note
    (e := .answered f.call (entries fs) f.before (conclude (f.before.place f.call) f.call result)
      (r.close (f.before.place f.call) f.call result)) (hended.advance hadvances) hclosed
    (by
      rintro e he _ _ _ _ _ ⟨⟩
      rcases List.mem_append.1 he with he | he
      · exact hsits.since e he
      · obtain rfl := List.mem_singleton.1 he
        exact .inr List.mem_cons_self)
    (by
      rintro _ _ _ _ _ ⟨⟩
      exact hclosed.sound_close hconsistent hsits.hasAt hsits.new)
    (by simp [Event.opens?])
  refine ⟨now_finished ▸ hclosed, now_finished ▸ hanswered, ?_⟩
  refine framed_answered.2 ?_
  show Framed needs _ ((events ++ [_]) ++ [_]) fs
  rw [List.append_assoc]
  refine hframed.mono (fun i x hx => hadvances.hasAt hx) ?_
  intro e he x hx
  rcases List.mem_cons.1 he with rfl | he
  · exact List.mem_cons_of_mem _ hx
  · obtain rfl := List.mem_singleton.1 he
    exact hx

theorem Sane.step {Ends : Rule} {s s' : Stage} (hs : Sane needs s) (hstep : Step needs Ends s s') :
    Sane needs s' := by
  cases hstep with
  | answer r h call a hcall => exact hs.answer hcall
  | start r h call hcall => exact hs.start hcall
  | finish r f fs events result hends => exact hs.finish

theorem Sane.steps {Ends : Rule} {s s' : Stage} (hs : Sane needs s)
    (hsteps : Relation.ReflTransGen (Step needs Ends) s s') : Sane needs s' := by
  induction hsteps with
  | refl => exact hs
  | tail _ hstep ih => exact ih.step hstep

/-- Whatever calls are made, with whatever resolvers, the invariant holds in the end. -/
theorem sane_outcome (needs : String → Bool) (calls : List (Call × Resolver)) :
    Sane needs (outcome needs calls) := by
  have hobeys : ∀ c ∈ calls, c.2.Obeys (fun _ _ => True) [] :=
    fun c _ => Resolver.obeys_trivial (fun _ _ => trivial) c.2 []
  exact sane_start.steps (steps_makeAll hobeys _)

end Registry

end SchemaGraph
