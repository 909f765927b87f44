import SchemaGraph.Library
import SchemaGraph.Proofs.Store.Steps

/-!
# Workers

Several add-ons are obtained at the same time: each has a worker of its own, and all of them share
the files.  A worker goes through a few stages, and between two of them any other worker may come
in.  Which worker makes the next step is up to a schedule; what it leaves undone is done afterwards,
so a schedule cannot be too short.

- `Store.result_steps_ready`: a worker that is left alone does what obtaining a cache does
- `Store.obtainAll_overtaking`: a worker that comes before another one
- `Library.addInterleaved_nil`: without a schedule the add-ons are obtained one after the other
-/

namespace SchemaGraph

variable {m : Type → Type} [Monad m] [FileSystem m]

namespace Store

/-! ## §1 Stages -/

/-- What a store is asked for. -/
structure Job where
  module : Path
  conventions : Conventions
  force : Bool

/-- Does a job. -/
def Job.run (j : Job) (s : Store) : m (Cache × Outcome) := s.obtain j.module j.conventions j.force

/-- How far a worker has come with its job. -/
inductive Stage where
  | ready
  /-- The module has a fingerprint. -/
  | known (fingerprint : Fingerprint)
  /-- There is no persisted cache to use. -/
  | missed (fingerprint : Fingerprint)
  /-- The module is extracted, but its cache is not persisted. -/
  | extracted (fingerprint : Fingerprint) (cache : Cache)
  | finished (cache : Cache) (outcome : Outcome)

/-- The next stage. -/
def step (s : Store) (j : Job) : Stage → m Stage
  | .ready => do
    match ← (Fingerprint.ofFile j.module).run with
    | .error _ => return .finished .empty .degraded
    | .ok fingerprint => return if j.force then .missed fingerprint else .known fingerprint
  | .known fingerprint => do
    match ← s.load? fingerprint j.conventions with
    | some cache => return .finished cache .hit
    | none => return .missed fingerprint
  | .missed fingerprint => do
    match ← (extractModule j.module j.conventions).run with
    | .error _ => return .finished .empty .degraded
    | .ok cache => return .extracted fingerprint cache
  | .extracted fingerprint cache => do
    discard (s.save fingerprint j.conventions cache).run
    return .finished cache .extracted
  | .finished cache outcome => return .finished cache outcome

/-- What has been obtained at the end. -/
def Stage.result : Stage → Cache × Outcome
  | .finished cache outcome => (cache, outcome)
  | _ => (.empty, .degraded)

/-- A number of steps, one after the other.  After four of them every worker has finished. -/
def steps (s : Store) (j : Job) : (number : Nat) → Stage → m Stage
  | 0, stage => return stage
  | number + 1, stage => do s.steps j number (← s.step j stage)

/-! ## §2 Workers -/

/-- A worker with its job. -/
structure Worker where
  job : Job
  stage : Stage

/-- The worker makes a step. -/
def Worker.step (s : Store) (w : Worker) : m Worker := do
  return { w with stage := ← s.step w.job w.stage }

/-- The worker makes all steps that are left. -/
def Worker.finish (s : Store) (w : Worker) : m Worker := do
  return { w with stage := ← s.steps w.job 4 w.stage }

/-- The worker at a position makes a step, if there is one. -/
def stepAt (s : Store) : (position : Nat) → List Worker → m (List Worker)
  | _, [] => return []
  | 0, w :: ws => return (← w.step s) :: ws
  | position + 1, w :: ws => return w :: (← s.stepAt position ws)

/-- The workers make steps in the order of a schedule of positions. -/
def follow (s : Store) : (schedule : List Nat) → List Worker → m (List Worker)
  | [], ws => return ws
  | position :: schedule, ws => do s.follow schedule (← s.stepAt position ws)

/-- The jobs are done by workers of their own, in the order of a schedule; at last those that are
not finished are finished. -/
def obtainAll (s : Store) (schedule : List Nat) (jobs : List Job) :
    m (List (Cache × Outcome)) := do
  let workers ← s.follow schedule (jobs.map (⟨·, .ready⟩))
  let workers ← workers.mapM (Worker.finish s)
  return workers.map (·.stage.result)

end Store

namespace Library

/-- The work for an add-on. -/
def addonJob (l : Library) (p : Path) : Store.Job :=
  ⟨p, l.conventions.keepingNamespace true, l.force⟩

/-- An add-on that is about to be merged. -/
def addon (keyed : String × Path) (result : Cache × Outcome) : Incoming :=
  ⟨keyed.1, keyed.2, result.1, result.2, true⟩

/-- Obtains the caches of several add-ons at the same time, and then merges them in the given
order. -/
def addInterleaved (l : Library) (schedule : List Nat) (paths : List Path) :
    m (List MergeReport × Library) := do
  let keyed ← paths.mapM fun p => return (← keyOf p, p)
  let pending := l.pending keyed
  let results ← l.store.obtainAll schedule (pending.map fun k => l.addonJob k.2)
  l.absorbAll (List.zipWith addon pending results)

end Library

/-! ## §3 A worker on its own -/

open OnTree

namespace Store

variable (s : Store) (j : Job) (f : Fingerprint) (t : FileTree) (cache : Cache)

/-- The stage after a module was fingerprinted. -/
def afterReady (j : Job) : Option Fingerprint → Stage
  | none => .finished .empty .degraded
  | some f => if j.force then .missed f else .known f

/-- The stage after a persisted cache was looked for. -/
def afterKnown (f : Fingerprint) : Option Cache → Stage
  | some cache => .finished cache .hit
  | none => .missed f

/-- The stage after a module was extracted. -/
def afterMissed (f : Fingerprint) : Option Cache → Stage
  | none => .finished .empty .degraded
  | some cache => .extracted f cache

theorem step_ready :
    (s.step j .ready : OnTree _) t = (afterReady j (t.fingerprint? j.module), t) := by
  obtain ⟨answer, hanswer, hf⟩ := ofFile_apply j.module t
  have hrun : ((Fingerprint.ofFile j.module).run : OnTree _) t = (answer, t) := hanswer
  rw [step, bind_apply, hrun, ← hf]
  cases answer <;> rfl

theorem step_known :
    (s.step j (.known f) : OnTree _) t = (afterKnown f (s.persisted? t f j.conventions), t) := by
  rw [step, bind_apply, load?_apply]
  cases s.persisted? t f j.conventions <;> rfl

theorem step_missed :
    (s.step j (.missed f) : OnTree _) t =
      (afterMissed f (t.extract? j.module j.conventions), t) := by
  obtain ⟨answer, hanswer, hcache⟩ := extractModule_apply j.module j.conventions t
  have hrun : ((extractModule j.module j.conventions).run : OnTree _) t = (answer, t) := hanswer
  rw [step, bind_apply, hrun, ← hcache]
  cases answer <;> rfl

theorem step_extracted :
    (s.step j (.extracted f cache) : OnTree _) t =
      (.finished cache .extracted, s.saved t f j.conventions cache) := by
  rw [step, discard_apply, pure_apply, saved]
  rfl

/-- Who has finished does nothing. -/
theorem steps_finished (number : Nat) (outcome : Outcome) :
    (s.steps j number (.finished cache outcome) : OnTree _) t = (.finished cache outcome, t) := by
  induction number with
  | zero => rfl
  | succ number ih => exact ih

theorem steps_extracted (number : Nat) :
    (s.steps j (number + 1) (.extracted f cache) : OnTree _) t =
      (.finished cache .extracted, s.saved t f j.conventions cache) := by
  rw [steps, bind_apply, step_extracted, steps_finished]

theorem steps_missed (number : Nat) :
    (s.steps j (number + 2) (.missed f) : OnTree _) t =
      match t.extract? j.module j.conventions with
      | none => (.finished .empty .degraded, t)
      | some cache => (.finished cache .extracted, s.saved t f j.conventions cache) := by
  rw [steps, bind_apply, step_missed]
  cases t.extract? j.module j.conventions with
  | none => exact s.steps_finished j t .empty _ _
  | some cache => exact s.steps_extracted j f t cache number

theorem steps_known (number : Nat) :
    (s.steps j (number + 3) (.known f) : OnTree _) t =
      match s.persisted? t f j.conventions with
      | some cache => (.finished cache .hit, t)
      | none => (s.steps j (number + 2) (.missed f) : OnTree _) t := by
  rw [steps, bind_apply, step_known]
  cases s.persisted? t f j.conventions with
  | none => rfl
  | some cache => exact s.steps_finished j t cache _ _

theorem steps_ready (number : Nat) :
    (s.steps j (number + 4) .ready : OnTree _) t =
      match t.fingerprint? j.module with
      | none => (.finished .empty .degraded, t)
      | some f =>
        (s.steps j (number + 3) (if j.force then .missed f else .known f) : OnTree _) t := by
  rw [steps, bind_apply, step_ready]
  cases t.fingerprint? j.module with
  | none => exact s.steps_finished j t .empty _ _
  | some f => rfl

/-- **A worker on its own** does what obtaining a cache does. -/
theorem result_steps_ready (s : Store) (j : Job) (t : FileTree) :
    (Stage.result <$> s.steps j 4 .ready : OnTree _) t =
      (j.run s : OnTree _) t := by
  rw [map_apply, steps_ready, Job.run, obtain_apply]
  cases t.fingerprint? j.module with
  | none => simp only [Stage.result]
  | some f =>
    simp only
    -- The steps are those of obtaining a cache: look up, extract, save, each only if it comes to
    -- that.
    cases hforce : j.force with
    | true =>
      simp only [if_true, steps_missed]
      cases t.extract? j.module j.conventions <;> simp only [Stage.result]
    | false =>
      simp only [Bool.false_eq_true, if_false, steps_known]
      cases s.persisted? t f j.conventions with
      | some cache => simp only [Stage.result]
      | none =>
        simp only [steps_missed]
        cases t.extract? j.module j.conventions <;> simp only [Stage.result]

/-- After four steps a worker has finished. -/
theorem exists_finished (stage : Stage) :
    ∃ cache outcome, ((s.steps j 4 stage : OnTree _) t).1 = .finished cache outcome := by
  -- From the end to the start: a stage is finished one step after those that follow it.
  have hmissed : ∀ number f, ∃ cache outcome,
      ((s.steps j (number + 2) (.missed f) : OnTree _) t).1 = .finished cache outcome := by
    intro number f
    rw [steps_missed]
    cases t.extract? j.module j.conventions with
    | none => exact ⟨_, _, rfl⟩
    | some cache => exact ⟨_, _, rfl⟩
  have hknown : ∀ number f, ∃ cache outcome,
      ((s.steps j (number + 3) (.known f) : OnTree _) t).1 = .finished cache outcome := by
    intro number f
    rw [steps_known]
    cases s.persisted? t f j.conventions with
    | none => exact hmissed number f
    | some cache => exact ⟨_, _, rfl⟩
  cases stage with
  | ready =>
    rw [steps_ready]
    cases t.fingerprint? j.module with
    | none => exact ⟨_, _, rfl⟩
    | some f =>
      simp only
      split
      · exact hmissed 1 f
      · exact hknown 0 f
  | known f => exact hknown 1 f
  | missed f => exact hmissed 2 f
  | extracted f cache =>
    rw [steps_extracted]
    exact ⟨_, _, rfl⟩
  | finished cache outcome =>
    rw [steps_finished]
    exact ⟨_, _, rfl⟩

/-! ## §4 Workers among others -/

section Induction

variable {s : Store} {I : List Worker → FileTree → Prop}

/-- Whatever the workers around it do in the meantime, each step of a worker keeps what holds of
all workers and the tree. -/
def StepKeeps (s : Store) (I : List Worker → FileTree → Prop) : Prop :=
  ∀ before w after t, I (before ++ w :: after) t →
    I (before ++ ⟨w.job, ((s.step w.job w.stage : OnTree _) t).1⟩ :: after)
      ((s.step w.job w.stage : OnTree _) t).2

theorem StepKeeps.stepAt (hstep : s.StepKeeps I) (position : Nat) {before ws : List Worker}
    {t : FileTree} (h : I (before ++ ws) t) :
    I (before ++ ((s.stepAt position ws : OnTree _) t).1)
      ((s.stepAt position ws : OnTree _) t).2 := by
  -- Workers in front of the position go over to those that are left alone.
  induction position generalizing before ws with
  | zero =>
    cases ws with
    | nil => exact h
    | cons w ws => exact hstep before w ws t h
  | succ position ih =>
    cases ws with
    | nil => exact h
    | cons w ws =>
      have hrest : I ((before ++ [w]) ++ ws) t := by simpa using h
      have hdone := ih hrest
      rw [List.append_assoc] at hdone
      exact hdone

theorem StepKeeps.follow (hstep : s.StepKeeps I) (schedule : List Nat) {ws : List Worker}
    {t : FileTree} (h : I ws t) :
    I ((s.follow schedule ws : OnTree _) t).1 ((s.follow schedule ws : OnTree _) t).2 := by
  induction schedule generalizing ws t with
  | nil => exact h
  | cons position schedule ih =>
    have hall : I ([] ++ ws) t := h
    exact ih (hstep.stepAt position hall)

theorem StepKeeps.steps (hstep : s.StepKeeps I) (number : Nat) {before after : List Worker}
    {j : Job} {stage : Stage} {t : FileTree} (h : I (before ++ ⟨j, stage⟩ :: after) t) :
    I (before ++ ⟨j, ((s.steps j number stage : OnTree _) t).1⟩ :: after)
      ((s.steps j number stage : OnTree _) t).2 := by
  induction number generalizing stage t with
  | zero => exact h
  | succ number ih => exact ih (hstep before ⟨j, stage⟩ after t h)

/-- The workers finish one after the other. -/
theorem StepKeeps.finishAll (hstep : s.StepKeeps I) {before ws : List Worker} {t : FileTree}
    (h : I (before ++ ws) t) :
    I (before ++ ((ws.mapM (Worker.finish s) : OnTree _) t).1)
        ((ws.mapM (Worker.finish s) : OnTree _) t).2
      ∧ ∀ w ∈ ((ws.mapM (Worker.finish s) : OnTree _) t).1,
          ∃ cache outcome, w.stage = .finished cache outcome := by
  -- `before` has finished and stays; the invariant speaks of it together with the rest.
  induction ws generalizing before t with
  | nil =>
    refine ⟨h, fun w hw => ?_⟩
    cases hw
  | cons w ws ih =>
    rw [List.mapM_cons]
    simp only [bind_apply, pure_apply, Worker.finish]
    -- The first worker finishes, which leaves the invariant for all of them.
    have hfirst := hstep.steps 4 h
    rw [List.append_cons] at hfirst
    obtain ⟨hdone, hfinished⟩ := ih hfirst
    rw [← List.append_cons] at hdone
    refine ⟨hdone, fun v hv => ?_⟩
    rcases List.mem_cons.1 hv with rfl | hv
    · exact s.exists_finished w.job t w.stage
    · exact hfinished v hv

/-- **All workers together**: what each step keeps holds at the end, when all have finished. -/
theorem StepKeeps.obtainAll (hstep : s.StepKeeps I) (schedule : List Nat) {jobs : List Job}
    {t : FileTree} (h : I (jobs.map (⟨·, .ready⟩)) t) :
    ∃ ws, I ws ((s.obtainAll schedule jobs : OnTree _) t).2
      ∧ ((s.obtainAll schedule jobs : OnTree _) t).1 = ws.map (·.stage.result)
      ∧ ∀ w ∈ ws, ∃ cache outcome, w.stage = .finished cache outcome := by
  have hfollowed : I ([] ++ _) _ := hstep.follow schedule h
  obtain ⟨hdone, hfinished⟩ := hstep.finishAll hfollowed
  exact ⟨_, hdone, rfl, hfinished⟩

end Induction

/-- Who finishes without a usable module has the empty cache. -/
def Stage.Proper : Stage → Prop
  | .finished cache outcome => outcome = .degraded → cache = .empty
  | _ => True

theorem proper_step (stage : Stage) (h : stage.Proper) :
    ((s.step j stage : OnTree _) t).1.Proper := by
  -- A cache is noted as degraded at two places only, and at both it is empty.
  cases stage with
  | ready =>
    rw [step_ready]
    cases t.fingerprint? j.module with
    | none => exact fun _ => rfl
    | some f =>
      show (if j.force then Stage.missed f else Stage.known f).Proper
      split <;> trivial
  | known f =>
    rw [step_known]
    cases s.persisted? t f j.conventions with
    | none => trivial
    | some cache => exact fun h => nomatch h
  | missed f =>
    rw [step_missed]
    cases t.extract? j.module j.conventions with
    | none => exact fun _ => rfl
    | some cache => trivial
  | extracted f cache =>
    rw [step_extracted]
    exact fun h => nomatch h
  | finished cache outcome => exact h

/-- Each job has its answer, and a degraded answer is the empty cache. -/
theorem obtainAll_proper (s : Store) (schedule : List Nat) (jobs : List Job) (t : FileTree) :
    ((s.obtainAll schedule jobs : OnTree _) t).1.length = jobs.length
      ∧ ∀ r ∈ ((s.obtainAll schedule jobs : OnTree _) t).1, r.2 = .degraded → r.1 = .empty := by
  have hstep : s.StepKeeps fun ws _ => ws.length = jobs.length ∧ ∀ w ∈ ws, w.stage.Proper := by
    rintro before w after t ⟨hlength, hproper⟩
    rw [List.forall_mem_append, List.forall_mem_cons] at hproper ⊢
    exact ⟨by simpa using hlength, hproper.1, s.proper_step w.job t w.stage hproper.2.1,
      hproper.2.2⟩
  have hstart : (jobs.map (⟨·, .ready⟩ : Job → Worker)).length = jobs.length
      ∧ ∀ w ∈ jobs.map (⟨·, .ready⟩ : Job → Worker), w.stage.Proper := by
    refine ⟨List.length_map _, fun w hw => ?_⟩
    obtain ⟨j, -, rfl⟩ := List.mem_map.1 hw
    trivial
  -- The invariant holds in the end, where every worker has finished.
  obtain ⟨ws, ⟨hlength, hproper⟩, hresults, hfinished⟩ := hstep.obtainAll schedule hstart
  rw [hresults]
  refine ⟨by simpa using hlength, fun r hr => ?_⟩
  obtain ⟨w, hw, rfl⟩ := List.mem_map.1 hr
  obtain ⟨cache, outcome, hstage⟩ := hfinished w hw
  have := hproper w hw
  rw [hstage] at this ⊢
  exact this

/-! ## §5 Two schedules -/

/-- Without a schedule the jobs are done one after the other. -/
theorem obtainAll_nil (s : Store) (jobs : List Job) :
    (s.obtainAll [] jobs : OnTree _) = jobs.mapM (Job.run · s) := by
  have hmapM : ((jobs.map (⟨·, .ready⟩)).mapM (Worker.finish s) : OnTree _) >>=
      (fun workers => pure (workers.map (·.stage.result))) = jobs.mapM (Job.run · s) := by
    induction jobs with
    | nil => rfl
    | cons j jobs ih =>
      rw [List.mapM_cons, ← ih, List.map_cons, List.mapM_cons]
      funext t
      have hfirst := s.result_steps_ready j t
      rw [map_apply] at hfirst
      simp only [bind_apply, pure_apply, Worker.finish, List.map_cons, ← hfirst]
  exact hmapM

/-- **Overtaking**: the second of two workers may have its cache from the files before the first one
makes a step. -/
theorem obtainAll_overtaking (s : Store) (j j' : Job) {t : FileTree} {f : Fingerprint}
    {cache : Cache} (hforce : j'.force = false) (hf : t.fingerprint? j'.module = some f)
    (hcache : s.persisted? t f j'.conventions = some cache) :
    (s.obtainAll [1, 1] [j, j'] : OnTree _) t =
      ([((j.run s : OnTree _) t).1, (cache, .hit)], ((j.run s : OnTree _) t).2) := by
  -- The two steps of the second worker, which leave the tree as it is.
  have hready : (s.step j' .ready : OnTree _) t = (.known f, t) := by
    rw [step_ready, hf, afterReady, hforce]
    rfl
  have hknown : (s.step j' (.known f) : OnTree _) t = (.finished cache .hit, t) := by
    rw [step_known, hcache, afterKnown]
  -- From here on the first worker is alone.
  rw [← result_steps_ready, map_apply]
  simp only [obtainAll, follow, stepAt, Worker.step, Worker.finish, List.map_cons, List.map_nil,
    List.mapM_cons, List.mapM_nil, bind_apply, pure_apply, hready, hknown, steps_finished,
    Stage.result]

end Store

namespace Library

/-- Answers can be put together with what was asked for afterwards. -/
theorem mapM_zipWith {α β γ : Type} (f : α → OnTree β) (make : α → β → γ) (xs : List α) :
    (xs.mapM fun x => do return make x (← f x)) =
      List.zipWith make xs <$> xs.mapM f := by
  induction xs with
  | nil => rfl
  | cons x xs ih =>
    rw [List.mapM_cons, List.mapM_cons, ih]
    rfl

/-- **Without a schedule** the add-ons are obtained one after the other. -/
theorem addInterleaved_nil (l : Library) (paths : List Path) :
    (l.addInterleaved [] paths : OnTree _) = l.addTogether paths := by
  -- A job answers the same whether it is in a list of jobs or by itself.
  have hincoming : ∀ (f : String × Path → OnTree Incoming),
      (∀ k, f k = do return addon k (← (l.addonJob k.2).run l.store)) → ∀ pending,
      pending.mapM f = List.zipWith addon pending <$>
        l.store.obtainAll [] (pending.map fun k => l.addonJob k.2) := by
    intro f hf pending
    rw [funext hf, mapM_zipWith, Store.obtainAll_nil, List.mapM_map]
    rfl
  unfold addInterleaved addTogether
  funext t
  simp only [bind_apply]
  rw [hincoming, map_apply]
  -- The answer is taken apart and put together again.
  rintro ⟨key, p⟩
  funext t
  simp only [bind_apply, Store.Job.run, addonJob]
  generalize (l.store.obtain p (l.conventions.keepingNamespace true) l.force : OnTree _) t = r
  rcases r with ⟨⟨cache, outcome⟩, t'⟩
  rfl

end Library

end SchemaGraph
