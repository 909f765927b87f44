import SchemaGraph.Proofs.Extraction.Histories
import SchemaGraph.Proofs.Model.FieldTree

/-!
# Half-Built Placeholders

A type that fails leaves its place in the arena, without fields and unknown by name.  Whoever was
answered the handle of that place while the type was under construction may hold on to it: a
schema on a cycle through the type is completed and stays, with a half-built placeholder below it.

- `Clean`: no completed schema and no variant leads to the place of a failed type
- `Traced`: what a registry holds was put there by an event of its history
- `clean_outcome_iff`: placeholders are reachable exactly if a handle that was answered during
  the construction of a type has got out, and the type failed afterwards
-/

namespace SchemaGraph

/-! ## §1 Reachable handles -/

/-- The field, or one below it at any depth, has the schema. -/
inductive Field.PointsAt (h : Handle) : Field → Prop where
  | here (f : Field) (hf : f.schemaId = h) : PointsAt h f
  | child (f c : Field) (hc : c ∈ f.childList) (hpoints : PointsAt h c) : PointsAt h f

/-- Some field has the schema, at some depth. -/
def Holds (fields : List Field) (h : Handle) : Prop := ∃ f ∈ fields, f.PointsAt h

theorem ne_nil_of_holds {fields : List Field} {h : Handle} (hh : Holds fields h) : fields ≠ [] := by
  rintro rfl
  obtain ⟨f, hf, -⟩ := hh
  cases hf

namespace Registry

/-- The handle can be reached from a completed schema or from a variant, through any number of
schemas. -/
inductive Reachable (r : Registry) : Handle → Prop where
  | schema {h : Handle} (s : Schema) (hs : s ∈ r.schemas) (hdone : r.failure? s.fullName = none)
    (hh : Holds s.fields h) : Reachable r h
  | variant {h : Handle} (v : Variant) (hv : v ∈ r.variants)
    (hh : v.schemaId = h ∨ Holds v.fields h) : Reachable r h
  | through {h : Handle} (h' : Handle) (s : Schema) (hreach : Reachable r h')
    (hs : entryAt? r.schemas h' = some s) (hh : Holds s.fields h) : Reachable r h

/-- No failed type can be reached. -/
def Clean (r : Registry) : Prop :=
  ∀ h s, Reachable r h → entryAt? r.schemas h = some s → r.failure? s.fullName = none

/-! ## §2 Fields of entries -/

/-- The entry has the fields. -/
def FieldsOf (r : Registry) (fields : List Field) : Entry → Prop
  | .schema typeName => ⟨typeName, fields⟩ ∈ r.schemas
  | .variant shortName => ∃ v ∈ r.variants, v.fullName = shortName ∧ v.fields = fields

/-- The short names of the variants with the schemas that they share. -/
def links (r : Registry) : List (String × Handle) :=
  r.variants.map fun v => (v.fullName, v.schemaId)

variable {needs : String → Bool} {r : Registry} {call : Call} {x : Entry} {fields : List Field}
  {typeName shortName : String} {h : Handle} {i : Nat} {stack : List Entry} {result : Ending}

theorem fieldsOf_reserve :
    (r.reserve call).FieldsOf fields x ↔ r.FieldsOf fields x ∨ x = call.entry ∧ fields = [] := by
  cases call <;> cases x <;>
    simp [FieldsOf, reserve, reserveSchema, reserveVariant, Call.entry, Schema.placeholder,
      Variant.placeholder, or_and_right, exists_or, eq_comm]

/-- Closing an entry gives it its fields, if there are any, and no other entry. -/
theorem fieldsOf_close (hat : r.HasAt i call.entry) (hschemas : r.schemaNames.Nodup)
    (hvariants : r.variantNames.Nodup) :
    (r.close i call result).FieldsOf fields x ↔
      match result with
      | .ok new => (x = call.entry ∧ fields = new) ∨ (x ≠ call.entry ∧ r.FieldsOf fields x)
      | .error _ => r.FieldsOf fields x := by
  cases result with
  -- A failure fills nothing.
  | error e => cases call <;> cases x <;> rfl
  | ok new =>
    cases call with
    | schema typeName =>
      cases x with
      | variant shortName => simp [Registry.close, fillSchema, FieldsOf, Call.entry]
      | schema other =>
        -- The entry is there, so it does get the fields.
        have hmem : ∃ s ∈ r.schemas, s.fullName = typeName :=
          List.mem_map.1 (List.mem_of_getElem? hat)
        refine (mem_modify_iff ({ · with fields := new }) (fun _ => rfl) hschemas hat).trans ?_
        simp only [FieldsOf, Call.entry, Entry.schema.injEq, Schema.mk.injEq, ne_eq]
        grind
    | variant typeName shortName isSpecialKind =>
      cases x with
      | schema other => simp [Registry.close, fillVariant, FieldsOf, Call.entry]
      | variant other =>
        have hmem : ∃ v ∈ r.variants, v.fullName = shortName :=
          List.mem_map.1 (List.mem_of_getElem? hat)
        -- As for schemas, and the link of the variant stays what it was.
        refine (exists_congr fun v => and_congr_left fun _ =>
          mem_modify_iff ({ · with fields := new }) (fun _ => rfl) hvariants hat).trans ?_
        simp only [FieldsOf, Call.entry, Entry.variant.injEq, ne_eq]
        constructor
        · rintro ⟨v, ⟨hname, w, hw, -, rfl⟩ | ⟨hname, hv⟩, rfl, rfl⟩
          · exact .inl ⟨hname, rfl⟩
          · exact .inr ⟨hname, v, hv, rfl, rfl⟩
        · rintro (⟨rfl, rfl⟩ | ⟨hne, v, hv, rfl, rfl⟩)
          · obtain ⟨v, hv, hname⟩ := hmem
            exact ⟨{ v with fields }, .inl ⟨hname, v, hv, hname, rfl⟩, hname, rfl⟩
          · exact ⟨v, .inr ⟨hne, hv⟩, rfl, rfl⟩

/-- The link that a new entry has. -/
def newLinks (r : Registry) : Call → List (String × Handle)
  | .schema _ => []
  | .variant typeName shortName _ => [(shortName, (r.schemaHandle? typeName).getD noHandle)]

theorem links_reserve : (r.reserve call).links = r.links ++ newLinks r call := by
  cases call <;>
    simp [links, newLinks, reserve, reserveSchema, reserveVariant, Variant.placeholder]

@[simp] theorem links_close : (r.close i call result).links = r.links := by
  cases call <;> cases result <;>
    simp [links, close, fillSchema, fillVariant, recordFailure, map_modify]

/-! ## §3 What a history tells -/

section Tells

/-- The resolver of a call has ended with a result, and has been granted handles. -/
def Ended (events : List Event) (call : Call) (granted : List Grant) (result : Ending) : Prop :=
  ∃ pending registry, .closed call pending granted result registry ∈ events

/-- A resolver of the entry has ended with the fields. -/
def Filled (events : List Event) (fields : List Field) (x : Entry) : Prop :=
  ∃ call granted, call.entry = x ∧ Ended events call granted (.ok fields)

/-- The resolver of a schema has failed. -/
def Fails (events : List Event) (typeName : String) : Prop :=
  ∃ granted e, Ended events (.schema typeName) granted (.error e)

/-- A variant was opened, and shares the schema that its type had then, if any. -/
def Linked (events : List Event) (shortName : String) (h : Handle) : Prop :=
  ∃ typeName special pending registry,
    .opened (.variant typeName shortName special) pending registry ∈ events ∧
      h = (registry.schemaHandle? typeName).getD noHandle

/-- A handle of a type under construction gets out: a resolver that was granted it ends with fields
that hold it, or a variant of the type is opened. -/
inductive Leaks (events : List Event) (typeName : String) : Prop where
  | held (call : Call) (granted : List Grant) (fields : List Field) (g : Grant)
    (hended : Ended events call granted (.ok fields)) (hg : g ∈ granted)
    (hname : g.typeName = typeName) (hunfinished : g.unfinished = true)
    (hh : Holds fields g.handle)
  | linked (shortName : String) (special : Bool) (pending : List Entry) (registry : Registry)
    (hopened : .opened (.variant typeName shortName special) pending registry ∈ events)
    (hpending : .schema typeName ∈ pending)

variable {events events' : List Event} {granted : List Grant} {answer : Answer}
  {before after : Registry} {history : History} {f : Frame} {fs : List Frame} {call' : Call}
  {result' : Ending}

theorem ended_append :
    Ended (events ++ events') call granted result ↔
      Ended events call granted result ∨ Ended events' call granted result := by
  simp [Ended, exists_or]

@[simp] theorem ended_answered :
    Ended (history.answered call' before answer after).events call granted result ↔
      Ended history.events call granted result := by
  rw [History.answered, ended_append]
  simp [Ended]

@[simp] theorem ended_opened :
    Ended (history.opened call' before).events call granted result ↔
      Ended history.events call granted result := by
  rw [History.opened, ended_append]
  simp [Ended]

@[simp] theorem ended_finished :
    Ended (finished r f fs events result').2.events call granted result ↔
      Ended events call granted result ∨
        call = f.call ∧ granted = f.granted ∧ result = result' := by
  rw [finished, ended_answered, History.closed, ended_append]
  simp only [Ended, List.mem_singleton, Event.closed.injEq]
  grind

theorem filled_finished :
    Filled (finished r f fs events result).2.events fields x ↔
      Filled events fields x ∨ x = f.call.entry ∧ .ok fields = result := by
  simp only [Filled, ended_finished]
  grind

theorem fails_finished :
    Fails (finished r f fs events result).2.events typeName ↔
      Fails events typeName ∨ f.call = .schema typeName ∧ ∃ e, .error e = result := by
  simp only [Fails, ended_finished]
  grind

theorem linked_append :
    Linked (events ++ events') shortName h ↔
      Linked events shortName h ∨ Linked events' shortName h := by
  simp only [Linked, List.mem_append, or_and_right, exists_or]

@[simp] theorem linked_answered :
    Linked (history.answered call before answer after).events shortName h ↔
      Linked history.events shortName h := by
  rw [History.answered, linked_append]
  simp [Linked]

@[simp] theorem linked_finished :
    Linked (finished r f fs events result).2.events shortName h ↔ Linked events shortName h := by
  rw [finished, linked_answered, History.closed, linked_append]
  simp [Linked]

/-- A new variant links to the schema that its type has by then. -/
theorem linked_opened :
    Linked (history.opened call r).events shortName h ↔
      Linked history.events shortName h ∨ (shortName, h) ∈ newLinks r call := by
  rw [History.opened, linked_append]
  refine or_congr_right ?_
  cases call with
  | schema typeName => simp [Linked, newLinks]
  | variant typeName n special =>
    -- Taking the place changes no schema, so the type has the same schema before and after.
    have hsame : (r.reserve (.variant typeName n special)).schemaHandle? typeName =
        r.schemaHandle? typeName := rfl
    simp only [Linked, newLinks, List.mem_singleton, Event.opened.injEq, Call.variant.injEq,
      Prod.mk.injEq]
    grind

end Tells

/-! ## §4 Grants -/

/-- A granted handle is none, or the place of the schema, which has not failed if it was finished
when the handle was granted. -/
def Grant.Valid (m : Moment) (g : Grant) : Prop :=
  (g.handle < 0 ∧ g.unfinished = false) ∨
    ∃ i : Nat, g.handle = i ∧ m.registry.HasAt i (.schema g.typeName) ∧
      (g.unfinished = false →
        .schema g.typeName ∉ m.pending ∧ m.registry.failure? g.typeName = none)

variable {m m' : Moment} {g : Grant}

theorem Grant.Valid.mono (hg : g.Valid m) (hadv : Advances m m') : g.Valid m' := by
  rcases hg with hnone | ⟨i, hi, hat, hfinished⟩
  · exact .inl hnone
  · refine .inr ⟨i, hi, hadv.hasAt hat, fun hun => ?_⟩
    obtain ⟨hx, hnone⟩ := hfinished hun
    obtain ⟨s, hs, hname⟩ := exists_schema_of_hasAt hat
    exact ⟨hname ▸ (hadv.schemas i s hs (hname ▸ hx)).2,
      hadv.settled _ (Has.of_hasAt hat) hx hnone⟩

theorem Consistent.valid_grants {before : Registry} {answer : Answer}
    (hm : Consistent needs ⟨r, stack⟩) (hsound : Event.Sound needs call before answer r) :
    ∀ g ∈ grants stack call answer, g.Valid ⟨r, stack⟩ := by
  cases call with
  | variant => simp [grants]
  | schema typeName =>
    cases answer with
    | error e => simp [grants]
    | ok h =>
      simp only [grants, List.mem_singleton]
      rintro g rfl
      cases hneeds : needs typeName with
      | false =>
        -- No entry of the type is under construction, since there is none.
        obtain rfl : h = noHandle := Except.ok.inj (hsound.unneeded typeName rfl hneeds)
        refine .inl ⟨(by decide : noHandle < 0), decide_eq_false fun hx => ?_⟩
        simp [hm.needed typeName (hm.placed _ hx)] at hneeds
      | true =>
        -- A known schema has a place; if it is not under construction, it has not failed.
        obtain ⟨hnone, i, hi, rfl⟩ :=
          (schemaHandle?_eq_some hm.schemaNames).1 (hsound.known typeName h rfl rfl hneeds)
        exact .inr ⟨i, rfl, hi, fun hun => ⟨of_decide_eq_false hun, hnone⟩⟩

/-! ## §5 Where the entries come from -/

section Traced

variable {Ends : Rule} {s s' : Stage} {events : List Event} {f : Frame} {fs : List Frame}

/-- **Provenance**: fields, links and failures are those that the history tells of, and granted
handles are valid. -/
structure Traced (Ends : Rule) (s : Stage) : Prop where
  bare : ∀ x ∈ entries s.2.frames, ∀ fields, s.1.FieldsOf fields x → fields = []
  filled : ∀ x fields, fields ≠ [] → (s.1.FieldsOf fields x ↔ Filled s.2.events fields x)
  linked : ∀ shortName h, (shortName, h) ∈ s.1.links ↔ Linked s.2.events shortName h
  failed : ∀ typeName, s.1.failure? typeName ≠ none ↔ Fails s.2.events typeName
  running : ∀ f ∈ s.2.frames, ∀ g ∈ f.granted, g.Valid (now s)
  ended : ∀ call granted result, Ended s.2.events call granted result →
    Ends (granted.map (·.handle)) result ∧ ∀ g ∈ granted, g.Valid (now s)

theorem traced_start : Traced Ends ({}, {}) where
  bare := by simp [entries]
  filled := by
    intro x fields _
    cases x <;> simp [FieldsOf, Filled, Ended]
  linked := by simp [links, Linked]
  failed := by simp [failure?, Fails, Ended]
  running := by simp
  ended := by simp [Ended]

theorem forall_granted_answered {P : Grant → Prop} {h : History} {before after : Registry}
    {answer : Answer} (hframes : ∀ f ∈ h.frames, ∀ g ∈ f.granted, P g)
    (hgrants : ∀ g ∈ grants (entries h.frames) call answer, P g) :
    ∀ f ∈ (h.answered call before answer after).frames, ∀ g ∈ f.granted, P g := by
  obtain ⟨_ | ⟨f, fs⟩, events⟩ := h
  · simp [History.answered]
  · -- Only the innermost frame, which made the call, is granted something.
    simp only [History.answered, List.forall_mem_cons, List.forall_mem_append] at hframes ⊢
    exact ⟨⟨hframes.1, hgrants⟩, hframes.2⟩

/-- A call that is answered at once may grant something, and changes nothing else. -/
theorem Traced.answer {h : History} {a : Answer} (ht : Traced Ends (r, h))
    (hs : Sane needs (r, h)) (hcall : r.answer? needs call = some a) :
    Traced Ends (r, h.answered call r a r) where
  bare := by
    rw [entries_answered]
    exact ht.bare
  filled := by
    intro x fields hne
    simp only [Filled, ended_answered]
    -- No entry is made, so filled ones, links and failures are those of before.
    exact ht.filled x fields hne
  linked := by simpa using ht.linked
  failed := by simpa [Fails] using ht.failed
  running := by
    rw [now_answered]
    exact forall_granted_answered ht.running
      (hs.consistent.valid_grants (hs.consistent.sound_answer hcall))
  ended := by
    rw [now_answered]
    simpa using ht.ended

theorem FieldsOf.has (hx : r.FieldsOf fields x) : r.Has x := by
  cases x with
  | schema typeName => exact List.mem_map_of_mem hx
  | variant shortName =>
    obtain ⟨v, hv, rfl, -⟩ := hx
    exact List.mem_map_of_mem hv

/-- A new entry has no fields, and a new variant the schema that its type has by then. -/
theorem Traced.start {h : History} (ht : Traced Ends (r, h)) (hcall : r.answer? needs call = none) :
    Traced Ends (r.reserve call, h.opened call r) := by
  have hadvances : Advances (now (r, h)) (now (r.reserve call, h.opened call r)) :=
    Advances.reserve hcall
  exact {
    bare := by
      -- The new entry is bare, and so are the others that are under construction.
      intro x hx fields hfields
      rcases fieldsOf_reserve.1 hfields with hfields | ⟨-, rfl⟩
      · rcases List.mem_cons.1 hx with rfl | hx
        · exact absurd hfields.has (not_has_of_answer?_eq_none hcall)
        · exact ht.bare x hx fields hfields
      · rfl
    filled := by
      intro x fields hne
      simp only [Filled, ended_opened, fieldsOf_reserve, hne, and_false, or_false]
      exact ht.filled x fields hne
    linked := by
      intro shortName i
      rw [links_reserve, List.mem_append, ht.linked shortName i, linked_opened]
    failed := by simpa [Fails, failure?_reserve] using ht.failed
    running := by
      intro f hf g hg
      rcases List.mem_cons.1 hf with rfl | hf
      · cases hg
      · exact (ht.running f hf g hg).mono hadvances
    ended := by
      intro call' granted result hend
      obtain ⟨hends, hvalid⟩ := ht.ended call' granted result (ended_opened.1 hend)
      exact ⟨hends, fun g hg => (hvalid g hg).mono hadvances⟩ }

/-- Fields are told of when the resolver of an entry has ended with them. -/
theorem Traced.filled_finish (ht : Traced Ends (r, ⟨f :: fs, events⟩))
    (hs : Sane needs (r, ⟨f :: fs, events⟩)) (hne : fields ≠ []) :
    (finished r f fs events result).1.FieldsOf fields x ↔
      Filled (finished r f fs events result).2.events fields x := by
  have hold := ht.filled x fields hne
  -- The entry has had no fields so far, since it has been under construction.
  have hbare : x = f.call.entry → ¬ Filled events fields x := fun heq hfilled =>
    hne (ht.bare x (heq ▸ List.mem_cons_self) fields (hold.2 hfilled))
  rw [filled_finished]
  refine (fieldsOf_close hs.framed.1.hasAt hs.consistent.schemaNames
    hs.consistent.variantNames).trans ?_
  cases result with
  | error e => simpa using hold
  | ok new =>
    simp only [Except.ok.injEq, hold]
    grind

theorem Traced.finish (ht : Traced Ends (r, ⟨f :: fs, events⟩))
    (hs : Sane needs (r, ⟨f :: fs, events⟩)) (hends : Ends (f.granted.map (·.handle)) result) :
    Traced Ends (finished r f fs events result) := by
  obtain ⟨hsits, -⟩ := hs.framed
  have hconsistent : Consistent needs ⟨r, f.call.entry :: entries fs⟩ := hs.consistent
  have hclosed : Consistent needs ⟨r.close (f.before.place f.call) f.call result, entries fs⟩ :=
    hconsistent.close hsits.hasAt hsits.apart
  have hadvances : Advances (now (r, ⟨f :: fs, events⟩)) (now (finished r f fs events result)) :=
    now_finished ▸ Advances.close hconsistent hsits.hasAt
  exact {
    bare := by
      intro x hx fields hx'
      -- The entry that is closed is none of those that stay open.
      have hx : x ∈ entries fs := by rwa [finished, entries_answered] at hx
      have hne : x ≠ f.call.entry := fun heq => hsits.apart (heq ▸ hx)
      have hfields := (fieldsOf_close hsits.hasAt hconsistent.schemaNames
        hconsistent.variantNames).1 hx'
      refine ht.bare x (List.mem_cons_of_mem _ hx) fields ?_
      cases result with
      | ok new => exact (hfields.resolve_left fun h => hne h.1).2
      | error e => exact hfields
    filled := fun x fields hne => ht.filled_finish hs hne
    linked := by
      intro shortName i
      rw [linked_finished]
      exact links_close.symm ▸ ht.linked shortName i
    failed := by
      intro typeName
      rw [fails_finished, ← ht.failed typeName]
      exact failure?_close_ne_none
    running := by
      refine forall_granted_answered (fun f' hf' g hg => ?_) ?_
      -- The handles that were granted before stay what they are; the answer grants one more at
      -- most.
      · exact (ht.running f' (List.mem_cons_of_mem _ hf') g hg).mono hadvances
      · rw [now_finished]
        exact hclosed.valid_grants (hclosed.sound_close hconsistent hsits.hasAt hsits.new)
    ended := by
      intro call granted result' hend
      rcases ended_finished.1 hend with hend | ⟨rfl, rfl, rfl⟩
      · obtain ⟨hends', hvalid⟩ := ht.ended call granted result' hend
        exact ⟨hends', fun g hg => (hvalid g hg).mono hadvances⟩
      · exact ⟨hends, fun g hg => (ht.running f List.mem_cons_self g hg).mono hadvances⟩ }

theorem Traced.step (ht : Traced Ends s) (hs : Sane needs s) (hstep : Step needs Ends s s') :
    Traced Ends s' := by
  cases hstep with
  | answer r h call a hcall => exact ht.answer hs hcall
  | start r h call hcall => exact ht.start hcall
  | finish r f fs events result hends => exact ht.finish hs hends

theorem Traced.steps (ht : Traced Ends s) (hs : Sane needs s)
    (hsteps : Relation.ReflTransGen (Step needs Ends) s s') : Traced Ends s' := by
  induction hsteps with
  | refl => exact ht
  | tail hsteps hstep ih => exact ih.step (hs.steps hsteps) hstep

theorem traced_outcome (needs : String → Bool) {calls : List (Call × Resolver)}
    (hcalls : ∀ c ∈ calls, c.2.Obeys Ends []) : Traced Ends (outcome needs calls) :=
  traced_start.steps sane_start (steps_makeAll hcalls _)

end Traced

/-! ## §6 Leaks -/

section Leaks

/-- A resolver that ends with fields holds only handles that it was granted. -/
def HoldsGranted (given : List Handle) (result : Ending) : Prop :=
  ∀ fields, result = .ok fields → ∀ h, 0 ≤ h → Holds fields h → h ∈ given

variable {s : Stage} {place : Nat}

/-- What leads to an entry directly: a completed schema, a variant, or the link of a variant. -/
theorem reachable_cases (hreach : Reachable r h) :
    (∃ x fields, r.FieldsOf fields x ∧ Holds fields h) ∨ ∃ shortName, (shortName, h) ∈ r.links := by
  cases hreach with
  | schema s hs hdone hh => exact .inl ⟨.schema s.fullName, s.fields, hs, hh⟩
  | through h' s _ hs hh =>
    obtain ⟨i, hi, -, rfl⟩ := exists_getElem_of_entryAt? hs
    exact .inl ⟨.schema _, _, List.getElem_mem hi, hh⟩
  | variant v hv hh =>
    rcases hh with rfl | hh
    · exact .inr ⟨v.fullName, List.mem_map_of_mem hv⟩
    · exact .inl ⟨.variant v.fullName, v.fields, ⟨v, hv, rfl, rfl⟩, hh⟩

/-- The place of a type that failed can be reached only if a handle of it has got out. -/
theorem leaks_of_reachable (hs : Sane needs s) (ht : Traced HoldsGranted s)
    (hreach : Reachable s.1 place) (hat : s.1.HasAt place (.schema typeName))
    (hfailed : s.1.failure? typeName ≠ none) : Leaks s.2.events typeName := by
  have hat' : s.1.schemaNames[place]? = some typeName := hat
  rcases reachable_cases hreach with ⟨x, fields, hx, hh⟩ | ⟨shortName, hlink⟩
  · -- A resolver ended with the fields, so it was granted the handle.
    obtain ⟨call, granted, rfl, hended⟩ := (ht.filled x fields (ne_nil_of_holds hh)).1 hx
    obtain ⟨hends, hvalid⟩ := ht.ended call granted _ hended
    obtain ⟨g, hg, hhandle⟩ := List.mem_map.1 (hends fields rfl place (Int.natCast_nonneg _) hh)
    have hplace : g.handle = place := hhandle
    rcases hvalid g hg with ⟨hneg, -⟩ | ⟨i, hi, hati, hfinished⟩
    · exact absurd hneg (hplace ▸ Int.not_lt.2 (Int.natCast_nonneg place))
    · -- The handle is the place of one type only.
      obtain rfl : i = place := Int.ofNat.inj (hi.symm.trans hplace)
      obtain rfl : g.typeName = typeName := Option.some.inj (hati.symm.trans hat')
      refine .held call granted fields g hended hg rfl ?_ (hhandle ▸ hh)
      by_contra hun
      exact hfailed (hfinished (Bool.eq_false_iff.2 hun)).2
  · -- The variant took the handle from the registry when it was opened.
    obtain ⟨linkedType, special, pending, registry, hopened, hlinked⟩ :=
      (ht.linked shortName place).1 hlink
    cases hhandle : registry.schemaHandle? linkedType with
    | none => simp [hhandle, noHandle] at hlinked
    | some h =>
      have hm : Consistent needs ⟨registry, pending⟩ := hs.recorded.consistent _ hopened
      have hadv : Advances ⟨registry, pending⟩ (now s) := hs.recorded.reached _ hopened
      obtain ⟨hnone, i, hi, rfl⟩ := (schemaHandle?_eq_some hm.schemaNames).1 hhandle
      obtain rfl : place = i := Int.ofNat.inj (by simpa [hhandle] using hlinked)
      have hati : registry.HasAt place (.schema linkedType) := hi
      obtain rfl : linkedType = typeName := Option.some.inj ((hadv.hasAt hati).symm.trans hat')
      refine .linked shortName special pending registry hopened ?_
      by_contra hx
      exact hfailed (hadv.settled _ (Has.of_hasAt hati) hx hnone)

/-- The place of a type whose handle has got out can be reached. -/
theorem reachable_of_leaks (hs : Sane needs s) (ht : Traced HoldsGranted s)
    (hleaks : Leaks s.2.events typeName) :
    ∃ place : Nat, s.1.HasAt place (.schema typeName) ∧ Reachable s.1 place := by
  cases hleaks with
  | held call granted fields g hended hg hname hun hh =>
    obtain ⟨-, hvalid⟩ := ht.ended call granted _ hended
    rcases hvalid g hg with ⟨-, hfalse⟩ | ⟨i, hi, hati, -⟩
    · simp [hun] at hfalse
    · refine ⟨i, hname ▸ hati, ?_⟩
      have hx := (ht.filled call.entry fields (ne_nil_of_holds hh)).2 ⟨call, granted, rfl, hended⟩
      cases call with
      | variant typeName' shortName special =>
        obtain ⟨v, hv, -, rfl⟩ := hx
        exact .variant v hv (.inr (hi ▸ hh))
      | schema other =>
        refine .schema ⟨other, fields⟩ hx ?_ (hi ▸ hh)
        -- A failed schema has no fields to hold anything.
        by_contra hfailed
        exact ne_nil_of_holds hh (hs.consistent.hollow _ hx (.inr hfailed))
  | linked shortName special pending registry hopened hpending =>
    have hm : Consistent needs ⟨registry, pending⟩ := hs.recorded.consistent _ hopened
    have hadv : Advances ⟨registry, pending⟩ (now s) := hs.recorded.reached _ hopened
    -- A type under construction is known by name, so the variant links to its place.
    obtain ⟨i, hati, hhandle⟩ := hm.known_of_pending hpending
    have hlink := (ht.linked shortName i).2
      ⟨typeName, special, pending, registry, hopened, by rw [hhandle]; rfl⟩
    obtain ⟨v, hv, heq⟩ := List.mem_map.1 hlink
    exact ⟨i, hadv.hasAt hati, .variant v hv (.inl (congrArg Prod.snd heq))⟩

/-- **Placeholders**: let every resolver hold only handles that it was granted.  No failed type can
be reached after the calls exactly if no type fails of which a handle got out while the type was
under construction. -/
theorem clean_outcome_iff (needs : String → Bool) {calls : List (Call × Resolver)}
    (hcalls : ∀ c ∈ calls, c.2.Obeys HoldsGranted []) :
    (outcome needs calls).1.Clean ↔ ∀ typeName, Leaks (outcome needs calls).2.events typeName →
      ¬ Fails (outcome needs calls).2.events typeName := by
  have hs := sane_outcome needs calls
  have ht := traced_outcome needs hcalls
  constructor
  · -- The place of a type that leaks is reached, and empty if the type fails.
    intro hclean typeName hleaks hfails
    obtain ⟨place, hat, hreach⟩ := reachable_of_leaks hs ht hleaks
    obtain ⟨s, hs', rfl⟩ := exists_schema_of_hasAt hat
    exact (ht.failed _).2 hfails (hclean place s hreach (by rw [entryAt?_natCast, hs']))
  · -- A failed type that is reached has leaked.
    intro hleaks h s hreach hentry
    obtain ⟨place, hlt, rfl, rfl⟩ := exists_getElem_of_entryAt? hentry
    by_contra hfailed
    refine hleaks _ (leaks_of_reachable hs ht hreach ?_ hfailed) ((ht.failed _).1 hfailed)
    simp [HasAt, Registry.schemaNames, hlt]

end Leaks

end Registry

/-! ## §7 Scripts -/

open Registry

theorem Field.pointsAt_of_leaf {f : Field} {h : Handle} (hleaf : f.children = none)
    (hpoints : f.PointsAt h) : f.schemaId = h := by
  cases hpoints with
  | here _ hf => exact hf
  | child _ c hc _ => simp [Field.childList_none hleaf] at hc

namespace Script

/-- The field of an answer points at nothing but what the answer grants. -/
theorem mem_grantedHandles {script : Script} {h h' : Handle} (hnonneg : 0 ≤ h')
    (hpoints : (script.fieldFor h).PointsAt h') :
    h' ∈ grantedHandles script.call (.ok h) := by
  cases script with
  | schema typeName inner ending =>
    obtain rfl : h = h' := Field.pointsAt_of_leaf rfl hpoints
    exact List.mem_singleton_self h
  | variant typeName shortName isSpecialKind inner ending =>
    obtain rfl : noHandle = h' := Field.pointsAt_of_leaf rfl hpoints
    exact absurd hnonneg (by decide)

theorem holdsGranted_result {typeName : String} {ending : ResolverEnd} {fields : List Field}
    {given : List Handle} (hfields : ∀ h, 0 ≤ h → Holds fields h → h ∈ given) :
    HoldsGranted given (ending.result typeName fields) := by
  intro fields' hresult h hnonneg hh
  unfold ResolverEnd.result at hresult
  cases hfailure : ending.failure with
  | some reason => simp [hfailure] at hresult
  | none =>
    -- The fields that the calls have brought come first, and then those that the ending names.
    obtain rfl : fields ++ ending.fieldNames.map (Field.scalar · "System.Int32") = fields' := by
      simpa [hfailure] using hresult
    obtain ⟨f, hf, hpoints⟩ := hh
    rcases List.mem_append.1 hf with hf | hf
    · exact hfields h hnonneg ⟨f, hf, hpoints⟩
    · -- A scalar field has no schema.
      obtain ⟨name, -, rfl⟩ := List.mem_map.1 hf
      obtain rfl : noHandle = h := Field.pointsAt_of_leaf rfl hpoints
      exact absurd hnonneg (by decide)

mutual

theorem obeys_resolver : (script : Script) → script.resolver.Obeys HoldsGranted []
  | .schema typeName inner ending => obeys_resolverOf typeName ending inner [] [] (by simp [Holds])
  | .variant typeName _ _ inner ending =>
    obeys_resolverOf typeName ending inner [] [] (by simp [Holds])

theorem obeys_resolverOf (typeName : String) (ending : ResolverEnd) :
    (scripts : List Script) → (fields : List Field) → (given : List Handle) →
    (∀ h, 0 ≤ h → Holds fields h → h ∈ given) →
    (resolverOf typeName ending scripts fields).Obeys HoldsGranted given
  | [], fields, given, hfields => holdsGranted_result hfields
  | script :: scripts, fields, given, hfields => by
    refine ⟨obeys_resolver script, fun answer => ?_⟩
    cases answer with
    | error e =>
      intro fields' hresult
      cases hresult
    | ok i =>
      -- The field that is made of the answer holds its handle, which is granted from now on.
      refine obeys_resolverOf typeName ending scripts _ _ fun h hnonneg hh => ?_
      obtain ⟨f, hf, hpoints⟩ := hh
      rw [List.mem_append]
      rcases List.mem_append.1 hf with hf | hf
      · exact .inl (hfields h hnonneg ⟨f, hf, hpoints⟩)
      · obtain rfl := List.mem_singleton.1 hf
        exact .inr (mem_grantedHandles hnonneg hpoints)

end

/-- A ship with a hold and a cargo, where the hold knows its ship and the cargo cannot be
described. -/
def ship : Script :=
  .schema "Ship" [.schema "Hold" [.schema "Ship" [] {}] {}, .schema "Cargo" [] ⟨[], some "lost"⟩] {}

/-- The same types, requested from the hold on. -/
def hold : Script :=
  .schema "Hold" [.schema "Ship" [.schema "Hold" [] {}, .schema "Cargo" [] ⟨[], some "lost"⟩] {}] {}

/-- The calls of scripts, with the resolvers that they describe. -/
def calls (scripts : List Script) : List (Call × Resolver) :=
  scripts.map fun s => (s.call, s.resolver)

theorem clean_outcome_ship :
    (∀ c ∈ calls [ship], c.2.Obeys HoldsGranted []) ∧
      ((outcome (fun _ => true) (calls [ship])).1.Clean ↔
        ∀ typeName, Leaks (outcome (fun _ => true) (calls [ship])).2.events typeName →
          ¬ Fails (outcome (fun _ => true) (calls [ship])).2.events typeName) := by
  have hobeys : ∀ c ∈ calls [ship], c.2.Obeys HoldsGranted [] := by
    simp [calls, obeys_resolver]
  exact ⟨hobeys, clean_outcome_iff (fun _ => true) hobeys⟩

/-- The failed ship can be reached from its hold, which is known if the ship is requested first and
has failed if the hold is. -/
theorem not_clean_outcome_ship :
    ¬ (outcome (fun _ => true) (calls [ship])).1.Clean ∧
      (outcome (fun _ => true) (calls [ship, hold])).1.schemaHandle? "Hold" = some 1 ∧
      (outcome (fun _ => true) (calls [hold, ship])).1.failure? "Hold" ≠ none := by
  refine ⟨fun hclean => ?_, by decide, by decide⟩
  -- The hold has the place of the ship, which is empty.
  have hschemas : (outcome (fun _ => true) (calls [ship])).1.schemas =
      [⟨"Ship", []⟩, ⟨"Hold", [.nested "inner" "Ship" 0]⟩, ⟨"Cargo", []⟩] := by decide
  have hreach : Reachable (outcome (fun _ => true) (calls [ship])).1 0 := by
    refine .schema ⟨"Hold", [.nested "inner" "Ship" 0]⟩ (by simp [hschemas]) (by decide) ?_
    exact ⟨_, List.mem_singleton_self _, .here _ rfl⟩
  have hfailed := hclean 0 ⟨"Ship", []⟩ hreach (by rw [hschemas]; rfl)
  revert hfailed
  decide +kernel

end Script

end SchemaGraph
