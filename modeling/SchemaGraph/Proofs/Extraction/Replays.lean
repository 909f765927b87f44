import SchemaGraph.Proofs.Extraction.Laws
import SchemaGraph.Proofs.Extraction.Placeholders

/-!
# Failures Told Again

A type whose creation fails is recorded with a failure of its own: it names the type and quotes the
failure of the resolver in words.  The call that created the type passes the failure of the resolver
on as it is; every later call is answered what was recorded.  So all later answers are one and the
same, whoever asks and from however deep, and none of them is the first one.

- `Event.FailsToCreate`, `Repeats`: creations that fail, and histories that tell them alike
- `Event.Recording`: what such an answer leaves in the registry, by induction on the steps
- `outcome_replays`: what later calls are answered
-/

namespace SchemaGraph

namespace Registry

/-! ## §1 Failed creations -/

namespace Event

/-- The event is the answer to the call that created the schema of a type: it could not be answered
at once, and its resolver failed. -/
def FailsToCreate (needs : String → Bool) (e : Event) (typeName : String)
    (err : IntrospectionError) : Prop :=
  ∃ pending before after, e = .answered (.schema typeName) pending before (.error err) after
    ∧ before.answer? needs (.schema typeName) = none

/-- A creation that fails leaves the type recorded with its words. -/
def Recording (needs : String → Bool) (e : Event) : Prop :=
  ∀ typeName err, e.FailsToCreate needs typeName err →
    e.registry.failure? typeName = some ⟨typeName, err.message⟩

end Event

/-- Once the creation of a type has failed, every later call for it is answered the same failure. -/
def Repeats (needs : String → Bool) (events : List Event) : Prop :=
  events.Pairwise fun e e' => ∀ typeName err answer, e.FailsToCreate needs typeName err →
    e'.Answers typeName answer → answer = .error err

variable {needs : String → Bool} {m : Moment} {events : List Event} {e e' : Event}
  {typeName : String} {err : IntrospectionError} {answer : Answer}

theorem self_ne_append {lead text : String} (hlead : 0 < lead.length) : text ≠ lead ++ text := by
  intro heq
  have hlength := congrArg String.length heq
  rw [String.length_append] at hlength
  omega

/-- The words of a failure are longer than its reason, which they end in. -/
theorem reason_ne_message (e : IntrospectionError) : e.reason ≠ e.message := by
  refine self_ne_append ?_
  have hcolon : 0 < ": ".length := by decide
  rw [String.length_append]
  exact Nat.lt_of_lt_of_le hcolon (Nat.le_add_left _ _)

/-- So the recorded failure is not the one that it quotes. -/
theorem recorded_ne (typeName : String) (err : IntrospectionError) :
    (⟨typeName, err.message⟩ : IntrospectionError) ≠ err :=
  fun heq => reason_ne_message err (congrArg IntrospectionError.reason heq).symm

/-! ## §2 What is recorded -/

/-- **One step**: only the end of a resolver is the answer to a call that creates something. -/
theorem recording_step {Ends : Rule} {s s' : Stage} (hstep : Step needs Ends s s')
    (h : ∀ e ∈ s.2.events, e.Recording needs) : ∀ e ∈ s'.2.events, e.Recording needs := by
  cases hstep with
  | answer r h' call a hcall =>
    refine List.forall_mem_append.2 ⟨h, List.forall_mem_singleton.2 ?_⟩
    -- A call that is answered at once creates nothing.
    rintro typeName err ⟨pending, before, after, heq, hnew⟩
    cases heq
    rw [hcall] at hnew
    cases hnew
  | start r h' call hcall =>
    refine List.forall_mem_append.2 ⟨h, List.forall_mem_singleton.2 ?_⟩
    -- The start of a resolver is no answer.
    rintro typeName err ⟨pending, before, after, heq, hnew⟩
    cases heq
  | finish r f fs events result hends =>
    refine List.forall_mem_append.2 ⟨List.forall_mem_append.2 ⟨h, List.forall_mem_singleton.2 ?_⟩,
      List.forall_mem_singleton.2 ?_⟩
    -- Its end is none, either; the answer to its call comes after it.
    · rintro typeName err ⟨pending, before, after, heq, hnew⟩
      cases heq
    · rintro typeName err ⟨pending, before, after, heq, hnew⟩
      simp only [Event.answered.injEq] at heq
      obtain ⟨hcall, -, -, hanswer, -⟩ := heq
      rw [hcall] at hanswer
      cases result with
      | ok fields => cases hanswer
      | error e =>
        cases hanswer
        show (r.close _ f.call (.error err)).failure? typeName = _
        rw [failure?_close, hcall]
        exact if_pos rfl

theorem recording_steps {Ends : Rule} {s s' : Stage}
    (hsteps : Relation.ReflTransGen (Step needs Ends) s s')
    (h : ∀ e ∈ s.2.events, e.Recording needs) : ∀ e ∈ s'.2.events, e.Recording needs := by
  induction hsteps with
  | refl => exact h
  | tail _ hstep ih => exact recording_step hstep ih

theorem recording_outcome (needs : String → Bool) (calls : List (Call × Resolver)) :
    ∀ e ∈ (outcome needs calls).2.events, e.Recording needs := by
  have hobeys : ∀ c ∈ calls, c.2.Obeys (fun _ _ => True) [] :=
    fun c _ => Resolver.obeys_trivial (fun _ _ => trivial) c.2 []
  exact recording_steps (steps_makeAll hobeys _) (by simp)

/-! ## §3 What is told later -/

/-- After a recorded failure every answer for the type is what was recorded. -/
theorem Recorded.replays (hrec : Recorded needs m events) (he : e ∈ events) (he' : e' ∈ events)
    (hprecedes : e.Precedes e') {recorded : IntrospectionError}
    (hfailed : e.registry.failure? typeName = some recorded) (hans : e'.Answers typeName answer) :
    answer = .error recorded := by
  obtain ⟨pending, before, after, rfl⟩ := hans
  rcases hprecedes _ _ _ _ _ rfl with hadv | hpending
  · -- The call was made after the failure, so it is answered at once.
    have hcall : before.answer? needs (.schema typeName) = some (.error recorded) := by
      simp [answer?, hadv.failed typeName recorded hfailed]
    exact ((hrec.sound _ _ _ _ _ he').direct _ hcall).1
  · -- The type cannot fail while it is still under construction.
    have hpending' : .schema typeName ∈ e.moment.pending := by cases e <;> exact hpending
    exact absurd hpending' ((hrec.consistent e he).failed typeName recorded hfailed).2

theorem replays_of_recording (hrec : Recorded needs m events)
    (hrecording : ∀ e ∈ events, e.Recording needs) :
    events.Pairwise fun e e' => ∀ typeName err answer, e.FailsToCreate needs typeName err →
      e'.Answers typeName answer → answer = .error ⟨typeName, err.message⟩ :=
  hrec.ordered.imp_of_mem fun he he' hadv typeName err _ hfails hans =>
    hrec.replays he he' hadv.2 (hrecording _ he typeName err hfails) hans

/-- **Failures told again**: for any calls with any resolvers, after the creation of a type has
failed all later calls for it are answered one and the same failure, which names the type and quotes
the first failure in words.  It is never the first failure itself, so a history repeats its failures
exactly if no type is asked for again after its creation has failed. -/
theorem outcome_replays (needs : String → Bool) (calls : List (Call × Resolver)) :
    ((outcome needs calls).2.events.Pairwise fun e e' => ∀ typeName err answer,
        e.FailsToCreate needs typeName err → e'.Answers typeName answer →
          answer = .error ⟨typeName, err.message⟩)
      ∧ (Repeats needs (outcome needs calls).2.events ↔
        (outcome needs calls).2.events.Pairwise fun e e' => ∀ typeName err answer,
          e.FailsToCreate needs typeName err → ¬ e'.Answers typeName answer) := by
  have hreplays := replays_of_recording (sane_outcome needs calls).recorded
    (recording_outcome needs calls)
  refine ⟨hreplays, fun hrepeats => ?_, fun hsilent => ?_⟩
  · -- A later answer would be the first failure and the recorded one at once.
    refine (hreplays.and hrepeats).imp fun ⟨hrecorded, hfirst⟩ typeName err answer hfails hans => ?_
    have heq := (hrecorded typeName err answer hfails hans).symm.trans
      (hfirst typeName err answer hfails hans)
    exact recorded_ne typeName err (Except.error.inj heq)
  · exact hsilent.imp fun hnone typeName err answer hfails hans =>
      absurd hans (hnone typeName err answer hfails)

end Registry

open Registry

namespace Script

/-- A type that is made of one that cannot be read. -/
def outer : Script := .schema "Outer" [.schema "Inner" [] ⟨[], some "unreadable"⟩] {}

/-- Asked for again, the type fails with its own name and with words about the words: the call that
created it answered `cannot introspect type Inner: unreadable`. -/
theorem not_repeats_outcome_outer :
    ¬ Repeats (fun _ => true) (outcome (fun _ => true) (calls [outer, outer])).2.events := by
  intro h
  have hlater := List.pairwise_iff_getElem.1 h 5 6 (by decide) (by decide)
    (by decide) "Outer" ⟨"Inner", "unreadable"⟩ _ ⟨_, _, _, rfl, rfl⟩ ⟨_, _, _, rfl⟩
  revert hlater
  decide

end Script

end SchemaGraph
