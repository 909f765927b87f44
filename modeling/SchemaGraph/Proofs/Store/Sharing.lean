import SchemaGraph.Proofs.Library.Workers
import SchemaGraph.Proofs.Store.Transparency

/-!
# A Store that Is Shared

Workers that share the files of a store do not get into each other's way.  A worker finds no
document but such as were made by calls, or by other workers from the same modules; so it answers
what extraction gives, whichever worker comes before it.

- `Store.Setting.step`: what a step of a worker keeps
- `Store.Setting.obtainAll`: what the workers answer in the end
-/

namespace SchemaGraph

open OnTree FileTree

namespace Store

/-! ## §1 What the workers write -/

/-- The trees that come up when jobs are done on a tree: the caches of their modules are saved, in
any order and any number of times. -/
inductive Saves (s : Store) (jobs : List Job) (t : FileTree) : FileTree → Prop
  | start : Saves s jobs t t
  | save {t' : FileTree} (h : Saves s jobs t t') {j : Job} (hj : j ∈ jobs) {f : Fingerprint}
      (hf : t.fingerprint? j.module = some f) {cache : Cache}
      (hcache : t.extract? j.module j.conventions = some cache) :
      Saves s jobs t (s.saved t' f j.conventions cache)

/-- Whatever is saved, each module stays where it is. -/
def Undisturbed (s : Store) (jobs : List Job) (t : FileTree) : Prop :=
  ∀ t', s.Saves jobs t t' → ∀ j ∈ jobs, t'.find j.module = t.find j.module

/-- What is undisturbed stays so while caches are saved. -/
theorem Undisturbed.of_saves {s : Store} {jobs part : List Job} {t t' : FileTree}
    (h : s.Undisturbed jobs t) (ht' : s.Saves jobs t t') (hpart : ∀ j ∈ part, j ∈ jobs) :
    s.Undisturbed part t' := by
  intro t'' ht'' j hj
  -- A module is the same on both trees, so what is saved later might have been saved at first.
  have hsaves : s.Saves jobs t t'' := by
    induction ht'' with
    | start => exact ht'
    | save _ hj' hf hcache ih =>
      have hfind := h t' ht' _ (hpart _ hj')
      rw [fingerprint?_congr hfind] at hf
      rw [extract?_congr hfind] at hcache
      exact ih.save (hpart _ hj') hf hcache
  rw [h t'' hsaves j (hpart j hj), h t' ht' j (hpart j hj)]

/-- Modules that are there, but not where the documents are, are undisturbed. -/
theorem undisturbed_of_outside {s : Store} {jobs : List Job} {t : FileTree}
    (h : ∀ j ∈ jobs, ∃ l e, t.find j.module = .ok (l, e)
      ∧ ∀ j' ∈ jobs, l ≠ s.placeFor t (t.keyOf j'.module)) : s.Undisturbed jobs t := by
  intro t' ht'
  -- Where the documents are must stay the same as well, so that goes into the induction.
  have hboth : (∀ p, t'.place p = t.place p)
      ∧ ∀ j ∈ jobs, t'.find j.module = t.find j.module := by
    induction ht' with
    | start => exact ⟨fun _ => rfl, fun _ _ => rfl⟩
    | @save t' _ j' hj' f hf cache hcache ih =>
      obtain ⟨hplaces, hfind⟩ := ih
      have hkeeps := s.keeps_saved t' f j'.conventions cache
      refine ⟨fun p => (hkeeps.place_eq p).trans (hplaces p), fun j hj => ?_⟩
      obtain ⟨l, e, hl, houtside⟩ := h j hj
      -- A document is saved.  No module is at its place, as the place has been the same from the
      -- start.
      obtain ⟨contents, modified, -, rfl⟩ := fingerprint?_eq_some hf
      rw [hl]
      apply hkeeps.find ((hfind j hj).trans hl)
      rintro contents' ⟨hplace, -⟩
      rw [placeFor, hplaces] at hplace
      exact houtside j' hj' hplace
  exact hboth.2

/-! ## §2 The steps of a worker -/

/-- What the workers start from: documents that the store has written in calls, as in every run
(`Reaches.madeBy`), and modules that stay where they are.  No module is read in two formats, be it
by the workers or in those calls. -/
structure Setting (s : Store) (calls : List Call) (jobs : List Job) (t : FileTree) : Prop where
  madeBy : s.MadeBy calls t
  wellFormed : t.isWellFormed = true
  oneFormat : OneFormat (calls ++ jobs.map (⟨t, ·⟩))
  collisionFree : Set.InjOn Sha256.hexDigest (inputs (calls ++ jobs.map (⟨t, ·⟩)))
  undisturbed : s.Undisturbed jobs t

/-- The answer is what extraction gives, or the empty cache if it gives nothing. -/
def Settles (t : FileTree) (j : Job) (answer : Cache × Outcome) : Prop :=
  match t.extract? j.module j.conventions with
  | none => answer = (.empty, .degraded)
  | some cache => answer.1 = cache ∧ answer.2 ≠ .degraded

/-- What a worker has found out about its module is right. -/
def Stage.Sound (t : FileTree) (j : Job) : Stage → Prop
  | .ready => True
  | .known f => t.fingerprint? j.module = some f
  | .missed f => t.fingerprint? j.module = some f
  | .extracted f cache =>
    t.fingerprint? j.module = some f ∧ t.extract? j.module j.conventions = some cache
  | .finished cache outcome => Settles t j (cache, outcome)

namespace Setting

variable {s : Store} {calls : List Call} {jobs : List Job} {t t' : FileTree} {j : Job}

theorem mem_calls (hj : j ∈ jobs) : (⟨t, j⟩ : Call) ∈ calls ++ jobs.map (⟨t, ·⟩) :=
  List.mem_append_right _ (List.mem_map_of_mem hj)

/-- All documents were made by calls or by workers. -/
theorem madeBy_of_saves (h : s.Setting calls jobs t) (ht' : s.Saves jobs t t') :
    s.MadeBy (calls ++ jobs.map (⟨t, ·⟩)) t' := by
  induction ht' with
  | start => exact h.madeBy.mono fun call hcall => List.mem_append_left _ hcall
  | @save t' _ j hj f hf cache hcache ih =>
    have hmem : (⟨t, j⟩ : Call) ∈ calls ++ jobs.map (⟨t, ·⟩) := mem_calls hj
    exact ih.saved hmem hf hcache

/-- A persisted cache is what extraction gives. -/
theorem extract?_of_persisted? (h : s.Setting calls jobs t) (ht' : s.Saves jobs t t')
    (hj : j ∈ jobs) {f : Fingerprint} (hf : t.fingerprint? j.module = some f) {cache : Cache}
    (hcache : s.persisted? t' f j.conventions = some cache) :
    t.extract? j.module j.conventions = some cache := by
  have hmem : (⟨t, j⟩ : Call) ∈ calls ++ jobs.map (⟨t, ·⟩) := mem_calls hj
  obtain ⟨hextract, -⟩ :=
    (h.madeBy_of_saves ht').persisted? (fun _ h => h) hmem h.collisionFree h.oneFormat hf hcache
  rwa [Call.extract?_mk] at hextract

/-- **One step** of a worker leaves a tree with saved caches, and the worker knows what is
right. -/
theorem step (h : s.Setting calls jobs t) (ht' : s.Saves jobs t t') (hj : j ∈ jobs) {stage : Stage}
    (hstage : stage.Sound t j) :
    s.Saves jobs t ((s.step j stage : OnTree _) t').2
      ∧ ((s.step j stage : OnTree _) t').1.Sound t j := by
  have hfind := h.undisturbed t' ht' j hj
  -- What the worker finds out about its module is the same on the tree where all began.
  cases stage with
  | ready =>
    rw [step_ready, fingerprint?_congr hfind]
    refine ⟨ht', ?_⟩
    cases hf : t.fingerprint? j.module with
    | none =>
      show Settles t j (.empty, .degraded)
      rw [Settles, extract?_of_fingerprint?_eq_none hf]
    | some f =>
      show (if j.force then Stage.missed f else Stage.known f).Sound t j
      split <;> exact hf
  | known f =>
    rw [step_known]
    refine ⟨ht', ?_⟩
    -- What is persisted is right, as every saved cache was extracted.
    cases hcache : s.persisted? t' f j.conventions with
    | none => exact hstage
    | some cache =>
      show Settles t j (cache, .hit)
      rw [Settles, h.extract?_of_persisted? ht' hj hstage hcache]
      exact ⟨rfl, nofun⟩
  | missed f =>
    rw [step_missed, extract?_congr hfind]
    refine ⟨ht', ?_⟩
    cases hcache : t.extract? j.module j.conventions with
    | none =>
      show Settles t j (.empty, .degraded)
      rw [Settles, hcache]
    | some cache =>
      have hsound : (Stage.extracted f cache).Sound t j := ⟨hstage, hcache⟩
      simp only [afterMissed]
      exact hsound
  | extracted f cache =>
    obtain ⟨hf, hcache⟩ := hstage
    -- The worker saves what it has extracted, which makes the tree one with one saved cache more.
    have hsaves := ht'.save hj hf hcache
    have hsettles : Settles t j (cache, .extracted) := by
      rw [Settles, hcache]
      exact ⟨rfl, nofun⟩
    rw [step_extracted]
    simp only [Stage.Sound]
    exact ⟨hsaves, hsettles⟩
  | finished cache outcome => exact ⟨ht', hstage⟩

/-- Several steps of a worker that is left alone. -/
theorem steps (h : s.Setting calls jobs t) (ht' : s.Saves jobs t t') (hj : j ∈ jobs) {stage : Stage}
    (hstage : stage.Sound t j) (number : Nat) :
    s.Saves jobs t ((s.steps j number stage : OnTree _) t').2
      ∧ ((s.steps j number stage : OnTree _) t').1.Sound t j := by
  induction number generalizing stage t' with
  | zero => exact ⟨ht', hstage⟩
  | succ number ih =>
    obtain ⟨hsaves, hsound⟩ := h.step ht' hj hstage
    exact ih hsaves hsound

theorem settles_of_sound {cache : Cache} {outcome : Outcome} {stage : Stage}
    (hfinished : stage = .finished cache outcome) (hsound : stage.Sound t j) :
    Settles t j stage.result := by
  subst hfinished
  exact hsound

/-- **One worker**: what obtaining a cache answers. -/
theorem run (h : s.Setting calls jobs t) (ht' : s.Saves jobs t t') (hj : j ∈ jobs) :
    s.Saves jobs t ((j.run s : OnTree _) t').2 ∧ Settles t j ((j.run s : OnTree _) t').1 := by
  have hready : Stage.ready.Sound t j := trivial
  obtain ⟨hsaves, hsound⟩ := h.steps ht' hj hready 4
  obtain ⟨cache, outcome, hfinished⟩ := s.exists_finished j t' .ready
  rw [← result_steps_ready, map_apply]
  exact ⟨hsaves, settles_of_sound hfinished hsound⟩

/-- **All workers**: in whatever order they work, each answers what extraction gives. -/
theorem obtainAll (h : s.Setting calls jobs t) (schedule : List Nat) {part : List Job}
    (hpart : ∀ j ∈ part, j ∈ jobs) :
    s.Saves jobs t ((s.obtainAll schedule part : OnTree _) t).2
      ∧ List.Forall₂ (Settles t) part ((s.obtainAll schedule part : OnTree _) t).1 := by
  -- The invariant: the tree has saved caches only, and each worker knows what is right.
  have hstep : s.StepKeeps fun ws t' => s.Saves jobs t t' ∧ ws.map (·.job) = part
      ∧ ∀ w ∈ ws, w.stage.Sound t w.job := by
    rintro before w after t' ⟨hsaves, hjobs, hsound⟩
    have hmem : w ∈ before ++ w :: after := List.mem_append_right _ List.mem_cons_self
    have hj : w.job ∈ jobs := hpart _ (hjobs ▸ List.mem_map_of_mem hmem)
    obtain ⟨hsaves', hsound'⟩ := h.step hsaves hj (hsound w hmem)
    -- The workers in front of the one that takes a step, and those after it, stay as they are.
    refine ⟨hsaves', by simpa using hjobs, ?_⟩
    rw [List.forall_mem_append, List.forall_mem_cons] at hsound ⊢
    exact ⟨hsound.1, hsound', hsound.2.2⟩
  have hstart : s.Saves jobs t t ∧ (part.map (⟨·, .ready⟩ : Job → Worker)).map (·.job) = part
      ∧ ∀ w ∈ part.map (⟨·, .ready⟩ : Job → Worker), w.stage.Sound t w.job := by
    have hjobs : (part.map (⟨·, .ready⟩ : Job → Worker)).map (·.job) = part := by
      rw [List.map_map]
      exact List.map_id part
    refine ⟨.start, hjobs, fun w hw => ?_⟩
    obtain ⟨j, -, rfl⟩ := List.mem_map.1 hw
    trivial
  -- Nothing else is needed of the run: in the end every worker has finished, and rightly.
  obtain ⟨ws, ⟨hsaves, hjobs, hsound⟩, hanswers, hfinished⟩ := hstep.obtainAll schedule hstart
  refine ⟨hsaves, ?_⟩
  rw [hanswers, ← hjobs, List.forall₂_map_left_iff, List.forall₂_map_right_iff,
    List.forall₂_same]
  intro w hw
  obtain ⟨cache, outcome, hstage⟩ := hfinished w hw
  exact settles_of_sound hstage (hsound w hw)

end Setting

end Store

end SchemaGraph
