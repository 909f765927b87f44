import Mathlib.Logic.Relation
import SchemaGraph.Extraction.Script

/-!
# Resolvers

A resolver may do whatever it likes with a registry: look at it, make requests, each with a
resolver of its own, go on with the answer, also when it is a failure, and in the end have fields
or fail.  Such behaviours are trees, and every resolver is one.

The run of a tree makes the requests of the registry itself, and notes what happens: when a
resolver starts and ends, what each request is answered, and which entries are under construction
meanwhile.

- `Registry.request_eq`: a request is answered at once, or by a resolver and the closing of its
  entry
- `Resolver`, `Resolver.run`: everything a resolver can do, and what happens then
- `Registry.outcome`: any calls with any resolvers, from the empty registry on
- `Script.seen_run`: scripts are resolvers
-/

namespace SchemaGraph

namespace Registry

/-! ## §1 Requests -/

/-- What a registry is asked for. -/
inductive Call where
  | schema (typeName : String)
  | variant (typeName shortName : String) (isSpecialKind : Bool)
  deriving DecidableEq

/-- An entry of a registry, by the name it is known under. -/
inductive Entry where
  | schema (typeName : String)
  | variant (shortName : String)
  deriving DecidableEq

/-- The entry that a call is about. -/
def Call.entry : Call → Entry
  | .schema typeName => .schema typeName
  | .variant _ shortName _ => .variant shortName

/-- How a resolver ends: with fields or with a failure. -/
abbrev Ending := Except IntrospectionError (List Field)

/-- What a request is answered. -/
abbrev Answer := Except IntrospectionError Handle

/-- How a resolver may end, given the handles that it was answered. -/
abbrev Rule := List Handle → Ending → Prop

variable {ν : Type}

/-- Makes a call. -/
def request (needsSchema : String → Bool) (call : Call) (resolve : Build ν (List Field)) :
    Build ν Handle :=
  match call with
  | .schema typeName => requestSchema needsSchema typeName resolve
  | .variant typeName shortName isSpecialKind =>
    requestVariant typeName shortName isSpecialKind resolve

/-- The answer that needs no resolver, if there is one. -/
def answer? (needsSchema : String → Bool) (r : Registry) : Call → Option Answer
  | .schema typeName =>
    match r.failure? typeName with
    | some e => some (.error e)
    | none =>
      match r.schemaHandle? typeName with
      | some h => some (.ok h)
      | none => if needsSchema typeName then none else some (.ok noHandle)
  | .variant _ shortName _ => (r.variantHandle? shortName).map .ok

/-- The registry with the place of a new entry taken. -/
def reserve (r : Registry) : Call → Registry
  | .schema typeName => r.reserveSchema typeName
  | .variant typeName shortName isSpecialKind => r.reserveVariant typeName shortName isSpecialKind

/-- The place that a new entry takes. -/
def place (r : Registry) : Call → Nat
  | .schema _ => r.schemas.length
  | .variant .. => r.variants.length

/-- The registry after the resolver of the entry at a place has ended. -/
def close (r : Registry) (place : Nat) : Call → Ending → Registry
  | .schema _, .ok fields => r.fillSchema place fields
  | .schema typeName, .error e => r.recordFailure typeName e
  | .variant .., .ok fields => r.fillVariant place fields
  | .variant .., .error _ => r

/-- What a call is answered when the resolver of its entry has ended. -/
def conclude (place : Nat) : Call → Ending → Answer
  | .schema _, .error e => .error e
  | _, _ => .ok place

/-- **A request**: it is answered at once, or the resolver runs while the place is taken. -/
theorem request_eq (needsSchema : String → Bool) (call : Call) (resolve : Build ν (List Field))
    (r : Registry) (notes : ν) :
    request needsSchema call resolve (r, notes) =
      match r.answer? needsSchema call with
      | some answer => (answer, (r, notes))
      | none =>
        let (result, (r', notes')) := resolve (r.reserve call, notes)
        (conclude (r.place call) call result, (r'.close (r.place call) call result, notes')) := by
  cases call with
  | schema typeName =>
    simp only [request, requestSchema, answer?]
    cases r.failure? typeName with
    | some e => rfl
    | none =>
      cases r.schemaHandle? typeName with
      | some h => rfl
      | none =>
        cases needsSchema typeName with
        | false => rfl
        | true =>
          -- What the resolver returns decides whether the entry is filled or its failure recorded.
          simp only [reserve, place, if_true]
          rcases resolve (r.reserveSchema typeName, notes) with ⟨_ | _, _, _⟩ <;> rfl
  | variant typeName shortName isSpecialKind =>
    simp only [request, requestVariant, answer?]
    cases r.variantHandle? shortName with
    | some h => rfl
    | none =>
      simp only [reserve, place, Option.map_none]
      rcases resolve (r.reserveVariant typeName shortName isSpecialKind, notes) with
        ⟨_ | _, _, _⟩ <;> rfl

/-! ## §2 Histories -/

/-- A schema handle that a resolver was answered, and whether the schema was under construction
then. -/
structure Grant where
  typeName : String
  handle : Handle
  unfinished : Bool

/-- Something that happens while resolvers run, with the entries under construction at that time,
the innermost first. -/
inductive Event where
  /-- The place of an entry is taken and its resolver starts. -/
  | opened (call : Call) (pending : List Entry) (registry : Registry)
  /-- The resolver of an entry ends; the place is about to be filled, or to fail. -/
  | closed (call : Call) (pending : List Entry) (granted : List Grant) (result : Ending)
      (registry : Registry)
  /-- A call is answered. -/
  | answered (call : Call) (pending : List Entry) (before : Registry) (answer : Answer)
      (after : Registry)

/-- A resolver that runs: the call that started it, the registry at that time, and what it has been
granted so far. -/
structure Frame where
  call : Call
  before : Registry
  granted : List Grant := []

/-- What has happened so far, and the resolvers that run now, the innermost first. -/
structure History where
  frames : List Frame := []
  events : List Event := []

/-- The entries of the frames. -/
def entries (frames : List Frame) : List Entry := frames.map (·.call.entry)

/-- What an answer grants. -/
def grants (pending : List Entry) : Call → Answer → List Grant
  | .schema typeName, .ok h => [⟨typeName, h, .schema typeName ∈ pending⟩]
  | _, _ => []

namespace History

/-- The resolver of a call starts. -/
def opened (h : History) (call : Call) (before : Registry) : History where
  frames := ⟨call, before, []⟩ :: h.frames
  events := h.events ++ [.opened call (call.entry :: entries h.frames) (before.reserve call)]

/-- The innermost resolver ends. -/
def closed (h : History) (result : Ending) (r : Registry) : History :=
  match h.frames with
  | [] => h
  | f :: fs => ⟨fs, h.events ++ [.closed f.call (entries h.frames) f.granted result r]⟩

/-- A call is answered, which may grant something to the resolver that made it. -/
def answered (h : History) (call : Call) (before : Registry) (answer : Answer)
    (after : Registry) : History where
  frames :=
    match h.frames with
    | [] => []
    | f :: fs => { f with granted := f.granted ++ grants (entries h.frames) call answer } :: fs
  events := h.events ++ [.answered call (entries h.frames) before answer after]

end History

/-- A registry with its history. -/
abbrev Stage := Registry × History

/-- Makes a call and notes what happens: the resolver starts with the place of the entry taken, and
after its end the call is answered. -/
def make (needsSchema : String → Bool) (call : Call) (resolve : Build History (List Field)) :
    Build History Handle := fun (before, h) =>
  let noted : Build History (List Field) := fun (r, h) =>
    let (result, (r', h')) := resolve (r, h.opened call before)
    (result, (r', h'.closed result r'))
  let (answer, (after, h')) := request needsSchema call noted (before, h)
  (answer, (after, h'.answered call before answer after))

end Registry

/-! ## §3 Runs -/

open Registry

/-- What a resolver does. -/
inductive Resolver where
  /-- Ends with fields or with a failure. -/
  | finish (result : Ending)
  /-- Goes on with what the registry looks like. -/
  | inspect (next : Registry → Resolver)
  /-- Makes a call, with a resolver of its own, and goes on with the answer. -/
  | request (call : Call) (resolver : Resolver) (next : Answer → Resolver)

namespace Resolver

/-- Runs a resolver. -/
def run (needsSchema : String → Bool) : Resolver → Build History (List Field)
  | .finish result => fun s => (result, s)
  | .inspect next => fun s => run needsSchema (next s.1) s
  | .request call resolver next => fun s =>
    let (answer, s') := make needsSchema call (run needsSchema resolver) s
    run needsSchema (next answer) s'

end Resolver

namespace Registry

/-- Makes calls one after the other, whatever they are answered. -/
def makeAll (needsSchema : String → Bool) : List (Call × Resolver) → Stage → Stage
  | [], s => s
  | (call, resolver) :: calls, s =>
    makeAll needsSchema calls (make needsSchema call (resolver.run needsSchema) s).2

/-- Where calls lead to from the empty registry. -/
def outcome (needsSchema : String → Bool) (calls : List (Call × Resolver)) : Stage :=
  makeAll needsSchema calls ({}, {})

/-! ## §4 Steps -/

section Steps

variable {needs : String → Bool} {Ends : Rule}
  {call : Call} {resolve : Build History (List Field)} {r : Registry} {h : History}

/-- The innermost resolver has ended, its entry is closed, and its call is answered. -/
def finished (r : Registry) (f : Frame) (fs : List Frame) (events : List Event) (result : Ending) :
    Stage :=
  let place := f.before.place f.call
  let after := r.close place f.call result
  (after, (History.closed ⟨f :: fs, events⟩ result r).answered f.call f.before
    (conclude place f.call result) after)

/-- What happens in one step: a call is answered at once, the resolver of a call starts, or the
innermost resolver ends, as the rule allows, and its call is answered. -/
inductive Step (needs : String → Bool) (Ends : Rule) : Stage → Stage → Prop where
  | answer (r : Registry) (h : History) (call : Call) (a : Answer)
      (hcall : r.answer? needs call = some a) :
      Step needs Ends (r, h) (r, h.answered call r a r)
  | start (r : Registry) (h : History) (call : Call) (hcall : r.answer? needs call = none) :
      Step needs Ends (r, h) (r.reserve call, h.opened call r)
  | finish (r : Registry) (f : Frame) (fs : List Frame) (events : List Event) (result : Ending)
      (hends : Ends (f.granted.map (·.handle)) result) :
      Step needs Ends (r, ⟨f :: fs, events⟩) (finished r f fs events result)

/-- The handles that an answer grants. -/
def grantedHandles : Call → Answer → List Handle
  | .schema _, .ok h => [h]
  | _, _ => []

theorem map_handle_grants (pending : List Entry) (call : Call) (answer : Answer) :
    (grants pending call answer).map (·.handle) = grantedHandles call answer := by
  cases call <;> cases answer <;> rfl

theorem make_eq (needs : String → Bool) (call : Call) (resolve : Build History (List Field))
    (r : Registry) (h : History) :
    make needs call resolve (r, h) =
      match r.answer? needs call with
      | some a => (a, (r, h.answered call r a r))
      | none =>
        let (result, (r', h')) := resolve (r.reserve call, h.opened call r)
        let after := r'.close (r.place call) call result
        let answer := conclude (r.place call) call result
        (answer, (after, (h'.closed result r').answered call r answer after)) := by
  simp only [make, request_eq]
  -- Making a request adds to the history what the answer tells, in either case.
  cases r.answer? needs call <;> rfl

end Steps

end Registry

namespace Resolver

/-- The resolver and all those of its calls end as allowed, given the handles that each was
answered. -/
def Obeys (Ends : Rule) : (given : List Handle) → Resolver → Prop
  | given, .finish result => Ends given result
  | given, .inspect next => ∀ r, (next r).Obeys Ends given
  | given, .request call resolver next =>
    resolver.Obeys Ends []
      ∧ ∀ answer, (next answer).Obeys Ends (given ++ grantedHandles call answer)

theorem obeys_trivial {Ends : Rule} (hends : ∀ given result, Ends given result)
    (resolver : Resolver) (given : List Handle) : resolver.Obeys Ends given := by
  induction resolver generalizing given with
  | finish result => exact hends given result
  | inspect next ih => exact fun r => ih r given
  | request call resolver next ih ihnext => exact ⟨ih [], fun answer => ihnext answer _⟩

end Resolver

namespace Registry

section Runs

variable {needs : String → Bool} {Ends : Rule}
  {resolver : Resolver} {call : Call} {given : List Handle}

/-- The run of a resolver in its frame is a sequence of steps, which leaves the frames below it
alone, and it ends as allowed. -/
def RunsBySteps (needs : String → Bool) (Ends : Rule) (given : List Handle)
    (resolve : Build History (List Field)) : Prop :=
  ∀ (r : Registry) (f : Frame) (fs : List Frame) (events : List Event),
    f.granted.map (·.handle) = given →
    ∃ result r' f' events', resolve (r, ⟨f :: fs, events⟩) = (result, (r', ⟨f' :: fs, events'⟩))
      ∧ f'.call = f.call ∧ f'.before = f.before ∧ Ends (f'.granted.map (·.handle)) result
      ∧ Relation.ReflTransGen (Step needs Ends) (r, ⟨f :: fs, events⟩) (r', ⟨f' :: fs, events'⟩)

/-- A call is a sequence of steps if its resolver is, and grants its answer to the resolver that
made it. -/
theorem steps_make {resolve : Build History (List Field)}
    (hresolve : RunsBySteps needs Ends [] resolve) (call : Call) (r : Registry) (h : History) :
    ∃ answer r' events', make needs call resolve (r, h) =
        (answer, (r', (History.answered ⟨h.frames, events'⟩ call r answer r')))
      ∧ Relation.ReflTransGen (Step needs Ends) (r, h)
          (r', History.answered ⟨h.frames, events'⟩ call r answer r') := by
  rw [make_eq]
  cases hcall : r.answer? needs call with
  | some a => exact ⟨a, r, h.events, rfl, .single (.answer r h call a hcall)⟩
  | none =>
    -- The resolver runs in a new frame, which is the innermost one again when it ends.
    obtain ⟨result, r', f', events', hrun, hf, hbefore, hends, hsteps⟩ :=
      hresolve (r.reserve call) ⟨call, r, []⟩ h.frames (h.opened call r).events rfl
    have hstart : (h.opened call r) = ⟨⟨call, r, []⟩ :: h.frames, (h.opened call r).events⟩ := rfl
    rw [← hstart] at hrun hsteps
    -- Its end is one more step, which closes the entry.
    have hfinish : Step needs Ends _ _ := .finish r' f' h.frames events' result hends
    obtain ⟨call', before', granted⟩ := f'
    obtain rfl : call' = call := hf
    obtain rfl : before' = r := hbefore
    simp only [hrun]
    exact ⟨_, _, _, rfl, ((Relation.ReflTransGen.single (.start _ h _ hcall)).trans hsteps).tail
      hfinish⟩

/-- **Runs are steps**: by induction on the resolver, whose calls have resolvers of their own. -/
theorem runsBySteps_run (hobeys : resolver.Obeys Ends given) :
    RunsBySteps needs Ends given (resolver.run needs) := by
  induction resolver generalizing given with
  | finish result =>
    rintro r f fs events rfl
    exact ⟨result, r, f, events, rfl, rfl, rfl, hobeys, .refl⟩
  | inspect next ih =>
    intro r f fs events hgiven
    -- Looking at the registry is no step.
    exact ih r (hobeys r) r f fs events hgiven
  | request call resolver next ih ihnext =>
    intro r f fs events hgiven
    obtain ⟨answer, r₁, events₁, hmake, hsteps₁⟩ :=
      steps_make (ih hobeys.1) call r ⟨f :: fs, events⟩
    -- The next part of the resolver starts with one more grant.
    have hgiven₁ : (f.granted ++ grants (entries (f :: fs)) call answer).map (·.handle) =
        given ++ grantedHandles call answer := by
      rw [List.map_append, map_handle_grants, hgiven]
    obtain ⟨result, r₂, f₂, events₂, hrun, hf, hbefore, hends, hsteps₂⟩ :=
      ihnext answer (hobeys.2 answer) r₁
        { f with granted := f.granted ++ grants (entries (f :: fs)) call answer } fs _ hgiven₁
    refine ⟨result, r₂, f₂, events₂, ?_, hf, hbefore, hends, hsteps₁.trans hsteps₂⟩
    simp only [Resolver.run, hmake]
    exact hrun

theorem steps_makeAll {calls : List (Call × Resolver)}
    (hobeys : ∀ c ∈ calls, c.2.Obeys Ends []) (s : Stage) :
    Relation.ReflTransGen (Step needs Ends) s (makeAll needs calls s) := by
  induction calls generalizing s with
  | nil => exact .refl
  | cons c calls ih =>
    obtain ⟨r, h⟩ := s
    obtain ⟨answer, r', events', hmake, hsteps⟩ :=
      steps_make (runsBySteps_run (hobeys c List.mem_cons_self)) c.1 r h
    rw [makeAll, hmake]
    exact hsteps.trans (ih (fun c' hc' => hobeys c' (List.mem_cons_of_mem _ hc')) _)

end Runs

end Registry

/-! ## §5 Scripts -/

/-- What the resolver of a type ends with. -/
def ResolverEnd.result (typeName : String) (fields : List Field) (ending : ResolverEnd) : Ending :=
  match ending.failure with
  | some reason => .error ⟨typeName, reason⟩
  | none => .ok (fields ++ ending.fieldNames.map (Field.scalar · "System.Int32"))

namespace Script

/-- The call that a script starts with. -/
def call : Script → Call
  | .schema typeName _ _ => .schema typeName
  | .variant typeName shortName isSpecialKind _ _ => .variant typeName shortName isSpecialKind

mutual

/-- What the resolver of a script does. -/
def resolver : Script → Resolver
  | .schema typeName inner ending => resolverOf typeName ending inner []
  | .variant typeName _ _ inner ending => resolverOf typeName ending inner []

/-- Makes the calls of scripts in order, with a field for each; the first failure is the end. -/
def resolverOf (typeName : String) (ending : ResolverEnd) :
    (scripts : List Script) → (fields : List Field) → Resolver
  | [], fields => .finish (ending.result typeName fields)
  | script :: scripts, fields => .request script.call script.resolver fun
    | .error e => .finish (.error e)
    | .ok h => resolverOf typeName ending scripts (fields ++ [script.fieldFor h])

end

/-- What can be seen of a state: not the notes. -/
def seen {ν α : Type} (x : α × Registry × ν) : α × Registry := (x.1, x.2.1)

theorem bind_apply {ν α β : Type} (c : Build ν α) (f : α → Build ν β) (s : Registry × ν) :
    (c >>= f) s = match c s with
      | (.ok a, s') => f a s'
      | (.error e, s') => (.error e, s') := by
  show ExceptT.bindCont f (c s).1 (c s).2 = _
  rcases c s with ⟨_ | _, _⟩ <;> rfl

variable {needs : String → Bool}

/-- Resolvers that look alike make requests that look alike. -/
theorem seen_request {ν : Type} {resolve : Build ν (List Field)}
    {resolve' : Build History (List Field)} (call : Call)
    (hresolve : ∀ r notes h, seen (resolve (r, notes)) = seen (resolve' (r, h)))
    (r : Registry) (notes : ν) (h : History) :
    seen (request needs call resolve (r, notes)) = seen (make needs call resolve' (r, h)) := by
  rw [request_eq, make_eq]
  cases r.answer? needs call with
  | some answer => rfl
  | none =>
    -- The entry is closed alike, whatever has been noted meanwhile.
    have hinside := hresolve (r.reserve call) notes (h.opened call r)
    generalize resolve (r.reserve call, notes) = x at hinside
    generalize resolve' (r.reserve call, h.opened call r) = y at hinside
    obtain ⟨result, r₁, notes₁⟩ := x
    obtain ⟨result', r₂, h₂⟩ := y
    obtain ⟨rfl, rfl⟩ := Prod.mk.inj hinside
    rfl

mutual

/-- **Scripts are resolvers**: their runs give the same answers and registries. -/
theorem seen_run (needs : String → Bool) : (script : Script) → ∀ r notes h,
    seen (script.run needs (r, notes)) =
      seen (make needs script.call (script.resolver.run needs) (r, h))
  | .schema typeName inner ending => by
    refine seen_request (.schema typeName) fun r notes h => ?_
    exact seen_runInner needs typeName ending inner [] r (notes ++ [typeName]) h
  | .variant typeName shortName isSpecialKind inner ending => by
    refine seen_request (.variant typeName shortName isSpecialKind) fun r notes h => ?_
    exact seen_runInner needs typeName ending inner [] r (notes ++ [typeName]) h

theorem seen_runInner (needs : String → Bool) (typeName : String) (ending : ResolverEnd) :
    (scripts : List Script) → ∀ fields r notes h,
    seen ((do finish typeName (fields ++ (← runInner needs scripts)) ending : Build _ _)
        (r, notes)) =
      seen ((resolverOf typeName ending scripts fields).run needs (r, h))
  | [] => by
    intro fields r notes h
    -- A resolver at its end either fails or returns the fields, and changes nothing.
    have hend : finish typeName fields ending = fun s => (ending.result typeName fields, s) := by
      unfold finish ResolverEnd.result
      cases ending.failure <;> rfl
    simp only [runInner, pure_bind, List.append_nil, hend, resolverOf, Resolver.run]
    rfl
  | script :: scripts => by
    intro fields r notes h
    have hfirst := seen_run needs script r notes h
    simp only [runInner, bind_assoc, resolverOf, Resolver.run]
    rw [bind_apply]
    generalize script.run needs (r, notes) = x at hfirst
    -- The first inner call has failed on both sides, or brings one more field to both.
    generalize make needs script.call (script.resolver.run needs) (r, h) = y at hfirst
    obtain ⟨answer, r₁, notes₁⟩ := x
    obtain ⟨answer', r₂, h₂⟩ := y
    obtain ⟨rfl, rfl⟩ := Prod.mk.inj hfirst
    cases answer with
    | error e => rfl
    | ok i =>
      have hrest := seen_runInner needs typeName ending scripts (fields ++ [script.fieldFor i]) r₁
        notes₁ h₂
      simpa only [pure_bind, List.append_assoc, List.singleton_append] using hrest

end

end Script

end SchemaGraph
