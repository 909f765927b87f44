import SchemaGraph.Proofs.Extraction.Questions

/-!
# Passes that Go the Same Way

A pass depends on how it makes requests only through what they do to the states that it comes
across.  If two ways to make requests agree on the states of a regime, then so do the passes that
make them.  The rules follow those for what a run keeps: the regime says which states can be met,
so a request has to be looked at from there on only.

- `Agree.bind`, `Agree.mapM`, `Agree.forIn`: computations that are put together alike
- `Pass.Supports.agree_flattenWith`: the fields of a type
-/

namespace SchemaGraph

/-! ## §1 Computations that agree -/

variable {σ ε α β : Type} {g : Regime σ} {low : σ}

/-- A list of computations keeps the regime, whatever the answers are. -/
theorem Keeps.mapM_any {f : β → ExceptT ε (StateM σ) α} {xs : List β}
    (hf : ∀ x ∈ xs, ∀ s, g.Le low s → Keeps g s (f x) fun _ _ => True) :
    Keeps g low (xs.mapM f) fun _ _ => True :=
  (Keeps.mapM (Q := fun _ _ => True) (fun _ _ _ _ _ => trivial) hf).weaken fun _ _ _ => trivial

/-- From every state of the regime above `low`, the two computations do the same. -/
def Agree (g : Regime σ) (low : σ) (c c' : ExceptT ε (StateM σ) α) : Prop :=
  ∀ s, g.Inv s → g.Le low s → c s = c' s

namespace Agree

variable {c c' : ExceptT ε (StateM σ) α} {Q : α → σ → Prop}

theorem refl (c : ExceptT ε (StateM σ) α) : Agree g low c c := fun _ _ _ => rfl

/-- Higher up there are fewer states to agree on. -/
theorem above {s : σ} (h : Agree g low c c') (hle : g.Le low s) : Agree g s c c' :=
  fun s' hinv hle' => h s' hinv (g.trans hle hle')

/-- **Sequencing**: what comes later has to agree from where the first computation may end. -/
theorem bind {f f' : α → ExceptT ε (StateM σ) β} (hkeeps : Keeps g low c Q) (hc : Agree g low c c')
    (hf : ∀ a s, g.Le low s → Agree g s (f a) (f' a)) : Agree g low (c >>= f) (c' >>= f') := by
  intro s hinv hle
  obtain ⟨hinv', hle', -⟩ := hkeeps s hinv hle
  rw [run_bind, run_bind, ← hc s hinv hle]
  cases (c s).1 with
  | error e => rfl
  | ok a => exact hf a (c s).2 (g.trans hle hle') (c s).2 hinv' (g.refl _)

theorem map (f : α → β) (hc : Agree g low c c') : Agree g low (f <$> c) (f <$> c') := by
  intro s hinv hle
  rw [run_map, run_map, hc s hinv hle]

theorem discard (hc : Agree g low c c') :
    Agree g low (Functor.discard c) (Functor.discard c') :=
  map (fun _ => PUnit.unit) hc

/-- A failure is absorbed in the same state. -/
theorem tryCatch (handle : ε → ExceptT ε (StateM σ) α) (hc : Agree g low c c') :
    Agree g low (MonadExcept.tryCatch c handle) (MonadExcept.tryCatch c' handle) := by
  intro s hinv hle
  rw [run_tryCatch, run_tryCatch, hc s hinv hle]

theorem mapM {f f' : β → ExceptT ε (StateM σ) α} {xs : List β}
    (hkeeps : ∀ x ∈ xs, ∀ s, g.Le low s → Keeps g s (f x) fun _ _ => True)
    (hf : ∀ x ∈ xs, Agree g low (f x) (f' x)) : Agree g low (xs.mapM f) (xs.mapM f') := by
  induction xs generalizing low with
  | nil => exact refl _
  | cons x xs ih =>
    rw [List.mapM_cons, List.mapM_cons]
    refine bind (hkeeps x List.mem_cons_self low (g.refl low)) (hf x List.mem_cons_self)
      fun a s hle => ?_
    -- The others are computed above the state that the first one left, where they still agree.
    have hkeeps' : ∀ y ∈ xs, ∀ s', g.Le s s' → Keeps g s' (f y) fun _ _ => True :=
      fun y hy s' hle' => hkeeps y (List.mem_cons_of_mem _ hy) s' (g.trans hle hle')
    have hrest := ih hkeeps' fun y hy => (hf y (List.mem_cons_of_mem _ hy)).above hle
    exact bind (Keeps.mapM_any hkeeps') hrest fun as s' _ => refl _

theorem forIn {γ : Type} {f f' : β → γ → ExceptT ε (StateM σ) (ForInStep γ)} {xs : List β} {b : γ}
    (hkeeps : ∀ x ∈ xs, ∀ b s, g.Le low s → Keeps g s (f x b) fun _ _ => True)
    (hf : ∀ x ∈ xs, ∀ b, Agree g low (f x b) (f' x b)) :
    Agree g low (ForIn.forIn xs b f) (ForIn.forIn xs b f') := by
  induction xs generalizing low b with
  | nil => exact refl _
  | cons x xs ih =>
    rw [List.forIn_cons, List.forIn_cons]
    refine bind (hkeeps x List.mem_cons_self b low (g.refl low)) (hf x List.mem_cons_self b)
      fun step s hle => ?_
    -- The body may end the loop or go on.
    cases step with
    | done b' => exact refl _
    | yield b' =>
      exact ih (fun y hy b s' hle' => hkeeps y (List.mem_cons_of_mem _ hy) b s' (g.trans hle hle'))
        fun y hy b => (hf y (List.mem_cons_of_mem _ hy) b).above hle

end Agree

namespace Pass

/-! ## §2 Fields -/

section Fields

variable {p : Pass} {g : Regime State} {A : Request → Handle → State → Prop}
  {ask ask' : Request → Run Handle} {low : State}

/-- The fields of a member agree if the answers to its requests do. -/
theorem Supports.agree_classifyWith (hask : Supports g A ask)
    (hagree : ∀ q, Agree g low (ask q) (ask' q)) (p : Pass) (m : Member) :
    Agree g low (p.classifyWith ask m) (p.classifyWith ask' m) := by
  rw [classifyWith_eq, classifyWith_eq]
  exact .map _ (.mapM (fun x _ s _ => (hask.answers x s).weaken fun _ _ _ => trivial)
    fun x _ => hagree x)

theorem Supports.agree_flattenLevels (hask : Supports g A ask)
    (hagree : ∀ q, Agree g low (ask q) (ask' q)) (p : Pass) (taken : List String)
    (levels : List TypeInfo) :
    Agree g low (p.flattenLevels ask taken levels) (p.flattenLevels ask' taken levels) := by
  induction levels generalizing taken low with
  | nil => exact .refl _
  | cons t levels ih =>
    unfold flattenLevels
    refine .bind (keeps_introspect hask.notes p t.fullName low) (.refl _) fun record s hle => ?_
    have hmembers : ∀ m ∈ newcomers (·.name) taken record.members, ∀ s', g.Le s s' →
        Keeps g s' (p.classifyWith ask m) fun _ _ => True :=
      fun m _ s' _ => (hask.keeps_classifyWith p m s').weaken fun _ _ _ => trivial
    -- First the members of the level itself, then the levels above.
    refine .bind (Keeps.mapM_any hmembers)
      (.mapM hmembers fun m _ => hask.agree_classifyWith (fun q => (hagree q).above hle) p m)
      fun fields s' hle' => ?_
    -- The levels above are flattened in a later state, where the two ways to ask go on agreeing.
    exact .bind (hask.keeps_flattenLevels p _ levels s')
      (ih (fun q => (hagree q).above (g.trans hle hle')) _) fun _ _ _ => .refl _

/-- **Flattening**: the fields of a type, and the state they leave, depend on the requests only. -/
theorem Supports.agree_flattenWith (hask : Supports g A ask)
    (hagree : ∀ q, Agree g low (ask q) (ask' q)) (p : Pass) (fullName : String) :
    Agree g low (p.flattenWith ask fullName) (p.flattenWith ask' fullName) :=
  hask.agree_flattenLevels hagree p _ _

end Fields

end Pass

end SchemaGraph
