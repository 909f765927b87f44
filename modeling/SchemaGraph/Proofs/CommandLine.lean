import SchemaGraph.CommandLine
import SchemaGraph.Proofs.Store.Steps

/-!
# Commands on a Tree

A command runs its tasks inside of a transcript.  A task does not see it: what a task answers and
what it does to the files is the same as outside of a command, and the transcript stays as it is
until the command itself writes to it.

- `CommandLine.Lifts`: a task inside of a command and the same task on its own
- `CommandLine.attempt_ok`, `CommandLine.attempt_error`: what a command makes of a task
- `CommandLine.runMerge_singleton`: merging one cache
-/

namespace SchemaGraph.CommandLine

open OnTree

variable {α β : Type}

/-! ## §1 Tasks inside of commands -/

/-- The first task does inside of a command what the second one does on its own. -/
def Lifts (inside : Task (Run OnTree) α) (alone : Task OnTree α) : Prop :=
  ∀ (tr : Transcript) (t : FileTree), inside tr t = ((.ok (alone t).1, tr), (alone t).2)

namespace Lifts

theorem pure (a : α) : Lifts (pure a) (pure a) := fun _ _ => rfl

theorem throw (e : Failure) : Lifts (throw e : Task (Run OnTree) α) (throw e) := fun _ _ => rfl

theorem bind {x : Task (Run OnTree) α} {y : Task OnTree α} {f : α → Task (Run OnTree) β}
    {g : α → Task OnTree β} (h : Lifts x y) (hf : ∀ a, Lifts (f a) (g a)) :
    Lifts (x >>= f) (y >>= g) := by
  intro tr t
  have hrun : (x >>= f) tr t =
      ExceptT.bindCont (ExceptT.bindCont f) (x tr t).1.1 (x tr t).1.2 (x tr t).2 := rfl
  rw [hrun, h]
  rcases hy : y t with ⟨e | a, t'⟩
  · rw [task_bind_error hy]
    rfl
  · rw [task_bind_ok hy]
    exact hf a tr t'

theorem ofIo {x : Task (Run OnTree) (Except IoError α)} {y : Task OnTree (Except IoError α)}
    (h : Lifts x y) : Lifts (Task.ofIo x) (Task.ofIo y) := by
  refine h.bind fun answer => ?_
  cases answer with
  | ok a => exact pure a
  | error e => exact throw _

theorem require (failure : Failure) (x : Option α) :
    Lifts (Task.require failure x) (Task.require failure x) := by
  cases x with
  | none => exact throw failure
  | some a => exact pure a

theorem read (p : Path) : Lifts (FileSystem.read p) (FileSystem.read p) := fun _ _ => rfl

theorem write (p : Path) (contents : Bytes) :
    Lifts (FileSystem.write p contents) (FileSystem.write p contents) := fun _ _ => rfl

theorem createDirectories (p : Path) :
    Lifts (FileSystem.createDirectories p) (FileSystem.createDirectories p) := fun _ _ => rfl

theorem writeWithDirectory (p : Path) (contents : Bytes) :
    Lifts (FileSystem.writeWithDirectory p contents)
      (FileSystem.writeWithDirectory p contents) := by
  unfold FileSystem.writeWithDirectory
  cases p.parent? with
  | none => exact write p contents
  | some directory =>
    refine (createDirectories directory).bind fun answer => ?_
    cases answer with
    | ok _ => exact write p contents
    | error e => exact pure _

theorem load (p : Path) : Lifts (Cache.load p) (Cache.load p) :=
  (read p).ofIo.bind fun _ => require _ _

theorem save (c : Cache) (p : Path) : Lifts (c.save p) (c.save p) :=
  (writeWithDirectory p _).ofIo

end Lifts

/-! ## §2 Parts of commands -/

theorem bind_apply {x : Run OnTree α} {f : α → Run OnTree β} {tr tr' : Transcript}
    {t t' : FileTree} {a : α} (h : x tr t = ((.ok a, tr'), t')) : (x >>= f) tr t = f a tr' t' := by
  have hrun : (x >>= f) tr t = ExceptT.bindCont f (x tr t).1.1 (x tr t).1.2 (x tr t).2 := rfl
  rw [hrun, h]
  rfl

theorem bind_apply_error {x : Run OnTree α} {f : α → Run OnTree β} {tr tr' : Transcript}
    {t t' : FileTree} {message : String} (h : x tr t = ((.error message, tr'), t')) :
    (x >>= f) tr t = ((.error message, tr'), t') := by
  have hrun : (x >>= f) tr t = ExceptT.bindCont f (x tr t).1.1 (x tr t).1.2 (x tr t).2 := rfl
  rw [hrun, h]
  rfl

/-- **A task in a command** answers what it answers on its own. -/
theorem attempt_ok {x : Task (Run OnTree) α} {y : Task OnTree α} (h : Lifts x y) {t t' : FileTree}
    {a : α} (hy : y t = (.ok a, t')) (words : String) (tr : Transcript) :
    attempt words x tr t = ((.ok a, tr), t') := by
  have hx : (x.run : Run OnTree _) tr t = ((.ok (.ok a), tr), t') :=
    (h tr t).trans (by rw [hy])
  rw [attempt, bind_apply hx]
  rfl

/-- Where a task fails, the command ends with a message. -/
theorem attempt_error {x : Task (Run OnTree) α} {y : Task OnTree α} (h : Lifts x y)
    {t t' : FileTree} {e : Failure} (hy : y t = (.error e, t')) (words : String)
    (tr : Transcript) :
    attempt words x tr t = ((.error (words ++ e.message), tr), t') := by
  have hx : (x.run : Run OnTree _) tr t = ((.ok (.error e), tr), t') :=
    (h tr t).trans (by rw [hy])
  rw [attempt, bind_apply hx]
  rfl

/-! ## §3 Merging one cache -/

/-- No variant collides with one of an empty arena. -/
theorem variantCollisions_empty (strategy : MergeStrategy) (c : Cache) :
    (Cache.empty.mergeReport strategy c).variantCollisions = 0 := by
  simp [Cache.mergeReport, Cache.empty]

/-- **Merging one cache** saves what the empty cache makes of it, and nothing else happens to the
files; the command succeeds if saving does. -/
theorem runMerge_singleton {p : Path} {t t' : FileTree} {c : Cache}
    (h : (Cache.load p : Task OnTree Cache) t = (.ok c, t')) (output : Path) (tr : Transcript) :
    let run := (runMerge [p] output false : Run OnTree Unit) tr t
    let saved := ((Cache.empty.merge .append c).save output : Task OnTree Unit) t'
    run.2 = saved.2 ∧ (run.1.1 = .ok () ↔ saved.1 = .ok ()) := by
  intro run saved
  have hread : (readCache p : Run OnTree Cache) tr t = ((.ok c, tr), t') :=
    attempt_ok (Lifts.load p) h _ tr
  -- Nothing collides, so nothing is reported before the result is saved.
  obtain ⟨line, hrun⟩ : ∃ line, run =
      (do writeCache output (Cache.empty.merge .append c); printLine line : Run OnTree Unit)
        tr t' := by
    refine ⟨_, @bind_apply _ _ _ _ tr tr t t' (Cache.empty.merge .append c) ?_⟩
    rw [List.foldlM_cons]
    refine (bind_apply ?_).trans rfl
    rw [bind_apply hread]
    simp only [variantCollisions_empty, Nat.lt_irrefl, if_false]
    rfl
  -- What is left of the command is to save the result, and to say so if that succeeds.
  rcases hsaved : saved with ⟨e | ⟨⟩, t''⟩
  · have hwrite : (writeCache output (Cache.empty.merge .append c) : Run OnTree Unit) tr t' = _ :=
      attempt_error (Lifts.save _ output) hsaved _ tr
    rw [hrun, bind_apply_error hwrite]
    simp
  · have hwrite : (writeCache output (Cache.empty.merge .append c) : Run OnTree Unit) tr t' = _ :=
      attempt_ok (Lifts.save _ output) hsaved _ tr
    rw [hrun, bind_apply hwrite]
    exact ⟨rfl, iff_of_true rfl rfl⟩

end SchemaGraph.CommandLine
