import Mathlib.Data.List.Forall2

/-!
# What Every Run Keeps

Computations of a pass change a state and may fail midway.  A *regime* is an invariant of states
together with an order in which states only move upwards; a computation *keeps* the regime if it
does so however it ends.  The rules below follow the way computations are put together:

- `Keeps.bind`: what comes later starts above what came before
- `Keeps.mapM`, `Keeps.forIn`, `Keeps.forIn_each`: lists of computations, by induction on the list
- `Keeps.tryCatch`: a failure that is absorbed leaves what was kept until then
-/

namespace SchemaGraph

/-! ## §1 Computations -/

section Runs

variable {σ ε α β : Type} (c : ExceptT ε (StateM σ) α) (s : σ)

theorem run_bind (f : α → ExceptT ε (StateM σ) β) :
    (c >>= f) s = match (c s).1 with
      | .ok a => f a (c s).2
      | .error e => (.error e, (c s).2) := by
  show ExceptT.bindCont f (c s).1 (c s).2 = _
  cases (c s).1 <;> rfl

theorem run_map (f : α → β) : (f <$> c) s = ((c s).1.map f, (c s).2) := by
  have hrun : (f <$> c) s = (match (c s).1 with
      | .ok a => Pure.pure (.ok (f a))
      | .error e => Pure.pure (.error e) : StateM σ (Except ε β)) (c s).2 := rfl
  rw [hrun]
  cases (c s).1 <;> rfl

theorem run_tryCatch (handle : ε → ExceptT ε (StateM σ) α) :
    (MonadExcept.tryCatch c handle : ExceptT ε (StateM σ) α) s = match (c s).1 with
      | .ok a => (.ok a, (c s).2)
      | .error e => handle e (c s).2 := by
  have hrun : (MonadExcept.tryCatch c handle : ExceptT ε (StateM σ) α) s = (match (c s).1 with
      | .ok a => Pure.pure (.ok a)
      | .error e => handle e : StateM σ (Except ε α)) (c s).2 := rfl
  rw [hrun]
  cases (c s).1 <;> rfl

/-- A sequence answers if both parts do. -/
theorem bind_eq_ok {c : ExceptT ε (StateM σ) α} {s : σ} {f : α → ExceptT ε (StateM σ) β} {b : β}
    {s' : σ} :
    (c >>= f) s = (.ok b, s') ↔ ∃ a s₁, c s = (.ok a, s₁) ∧ f a s₁ = (.ok b, s') := by
  rw [run_bind]
  constructor
  · intro h
    cases hres : (c s).1 with
    -- If the first part has failed, so has the sequence.
    | error e =>
      rw [hres] at h
      cases h
    | ok a =>
      rw [hres] at h
      exact ⟨a, (c s).2, Prod.ext hres rfl, h⟩
  · rintro ⟨a, s₁, hc, hf⟩
    rw [hc]
    exact hf

theorem discard_eq_ok {c : ExceptT ε (StateM σ) α} {s s' : σ} {u : Unit}
    (h : Functor.discard c s = (.ok u, s')) : ∃ a, c s = (.ok a, s') := by
  have hrun : Functor.discard c s = ((c s).1.map fun _ => PUnit.unit, (c s).2) :=
    run_map c s fun _ => PUnit.unit
  rw [hrun] at h
  obtain ⟨hanswer, hstate⟩ := Prod.mk.inj h
  cases hres : (c s).1 with
  | error e => simp [hres, Except.map] at hanswer
  | ok a => exact ⟨a, Prod.ext hres hstate⟩

end Runs

/-! ## §2 Regimes -/

/-- An invariant of states and an order on them. -/
structure Regime (σ : Type) where
  Inv : σ → Prop
  Le : σ → σ → Prop
  refl : ∀ s, Le s s
  trans : ∀ {a b c}, Le a b → Le b c → Le a c

variable {σ ε α β : Type} {g : Regime σ} {low : σ}

/-- From every state of the regime above `low`, the computation ends in a state of the regime
above the one it started in, also when it fails; its answer satisfies `Q` there. -/
def Keeps (g : Regime σ) (low : σ) (c : ExceptT ε (StateM σ) α) (Q : α → σ → Prop) : Prop :=
  ∀ s, g.Inv s → g.Le low s →
    g.Inv (c s).2 ∧ g.Le s (c s).2 ∧ ∀ a, (c s).1 = .ok a → Q a (c s).2

/-- Two invariants at once, and two orders. -/
def Regime.and (g g' : Regime σ) : Regime σ where
  Inv := fun s => g.Inv s ∧ g'.Inv s
  Le := fun s s' => g.Le s s' ∧ g'.Le s s'
  refl := fun s => ⟨g.refl s, g'.refl s⟩
  trans := fun h h' => ⟨g.trans h.1 h'.1, g'.trans h.2 h'.2⟩

/-- The states of a regime with one more property, in the same order. -/
def Regime.restrict (g : Regime σ) (P : σ → Prop) : Regime σ where
  Inv := fun s => g.Inv s ∧ P s
  Le := g.Le
  refl := g.refl
  trans := g.trans

namespace Keeps

variable {c : ExceptT ε (StateM σ) α} {Q Q' : α → σ → Prop}

/-! ## §3 Rules -/

/-- What keeps each of two regimes keeps them both at once. -/
theorem and {g' : Regime σ} (h : Keeps g low c Q) (h' : Keeps g' low c Q') :
    Keeps (g.and g') low c fun a s => Q a s ∧ Q' a s := by
  rintro s ⟨hinv, hinv'⟩ ⟨hle, hle'⟩
  obtain ⟨hend, hup, hans⟩ := h s hinv hle
  obtain ⟨hend', hup', hans'⟩ := h' s hinv' hle'
  exact ⟨⟨hend, hend'⟩, ⟨hup, hup'⟩, fun a ha => ⟨hans a ha, hans' a ha⟩⟩

/-- What keeps a regime keeps a property of its states as well if runs lead from states that have it
to states that have it. -/
theorem restrict {P : σ → Prop} (h : Keeps g low c Q)
    (hP : ∀ s, g.Inv s → P s → g.Le s (c s).2 → P (c s).2) : Keeps (g.restrict P) low c Q := by
  rintro s ⟨hinv, hs⟩ hle
  obtain ⟨hinv', hup, hans⟩ := h s hinv hle
  exact ⟨⟨hinv', hP s hinv hs hup⟩, hup, hans⟩

theorem weaken (h : Keeps g low c Q) (hQ : ∀ a s, Q a s → Q' a s) : Keeps g low c Q' := by
  intro s hinv hle
  obtain ⟨hinv', hle', hans⟩ := h s hinv hle
  exact ⟨hinv', hle', fun a ha => hQ a _ (hans a ha)⟩

/-- What a computation keeps, seen from a run that has answered. -/
theorem of_run (h : Keeps g low c Q) {s s' : σ} {a : α} (hs : g.Inv s) (hle : g.Le low s)
    (hrun : c s = (.ok a, s')) : g.Inv s' ∧ g.Le s s' ∧ Q a s' := by
  obtain ⟨hinv, hup, hans⟩ := h s hs hle
  rw [hrun] at hinv hup hans
  exact ⟨hinv, hup, hans a rfl⟩

theorem pure {a : α} (h : ∀ s, g.Inv s → g.Le low s → Q a s) :
    Keeps g low (Pure.pure a : ExceptT ε (StateM σ) α) Q := by
  intro s hinv hle
  refine ⟨hinv, g.refl s, fun b hb => ?_⟩
  cases hb
  exact h s hinv hle

theorem throw (e : ε) : Keeps g low (MonadExcept.throw e : ExceptT ε (StateM σ) α) Q := by
  intro s hinv _
  refine ⟨hinv, g.refl s, fun a ha => ?_⟩
  cases ha

/-- **Sequencing**: the second computation starts above the state that the first one left. -/
theorem bind {f : α → ExceptT ε (StateM σ) β} {R : β → σ → Prop} (hc : Keeps g low c Q)
    (hf : ∀ a s, g.Le low s → Q a s → Keeps g s (f a) R) : Keeps g low (c >>= f) R := by
  intro s hinv hle
  obtain ⟨hinv', hle', hans⟩ := hc s hinv hle
  rw [run_bind]
  cases hres : (c s).1 with
  | error e =>
    -- A failure ends the whole computation.
    refine ⟨hinv', hle', fun b hb => ?_⟩
    cases hb
  | ok a =>
    -- The second computation starts where the first one ended.
    obtain ⟨hinv'', hle'', hans'⟩ :=
      hf a (c s).2 (g.trans hle hle') (hans a hres) (c s).2 hinv' (g.refl _)
    exact ⟨hinv'', g.trans hle' hle'', hans'⟩

theorem map (f : α → β) {R : β → σ → Prop} (hc : Keeps g low c fun a s => R (f a) s) :
    Keeps g low (f <$> c) R := by
  intro s hinv hle
  obtain ⟨hinv', hle', hans⟩ := hc s hinv hle
  rw [run_map]
  refine ⟨hinv', hle', fun b hb => ?_⟩
  -- The function is applied to an answer and has nothing to do with a failure.
  cases hres : (c s).1 with
  | error e =>
    rw [hres] at hb
    cases hb
  | ok a =>
    rw [hres] at hb
    cases hb
    exact hans a hres

theorem discard (hc : Keeps g low c Q) : Keeps g low (Functor.discard c) fun _ _ => True :=
  map (fun _ => PUnit.unit) (hc.weaken fun _ _ _ => trivial)

/-- **Absorbed failures**: the handler starts where the computation failed. -/
theorem tryCatch {handle : ε → ExceptT ε (StateM σ) α} (hc : Keeps g low c Q)
    (hhandle : ∀ e s, g.Le low s → Keeps g s (handle e) Q) :
    Keeps g low (MonadExcept.tryCatch c handle) Q := by
  intro s hinv hle
  obtain ⟨hinv', hle', hans⟩ := hc s hinv hle
  rw [run_tryCatch]
  cases hres : (c s).1 with
  | error e =>
    obtain ⟨hinv'', hle'', hans'⟩ := hhandle e (c s).2 (g.trans hle hle') (c s).2 hinv' (g.refl _)
    exact ⟨hinv'', g.trans hle' hle'', hans'⟩
  -- An answer passes through, and its handler is not heard of.
  | ok a =>
    refine ⟨hinv', hle', fun b hb => ?_⟩
    cases hb
    exact hans a hres

/-- What is read is a state of the regime. -/
theorem get (low : σ) : Keeps g low (MonadState.get : ExceptT ε (StateM σ) σ)
    fun s _ => g.Inv s ∧ g.Le low s := by
  intro s hinv hle
  refine ⟨hinv, g.refl s, fun a ha => ?_⟩
  cases ha
  exact ⟨hinv, hle⟩

/-! ## §4 Lists of computations -/

/-- What holds of each answer still holds at the end, if it survives moving upwards. -/
theorem mapM {f : β → ExceptT ε (StateM σ) α} {xs : List β}
    (hmono : ∀ a s s', g.Le s s' → Q a s → Q a s')
    (hf : ∀ x ∈ xs, ∀ s, g.Le low s → Keeps g s (f x) Q) :
    Keeps g low (xs.mapM f) fun as s => ∀ a ∈ as, Q a s := by
  induction xs generalizing low with
  | nil =>
    apply Keeps.pure
    intro s _ _ a ha
    cases ha
  | cons x xs ih =>
    rw [List.mapM_cons]
    refine Keeps.bind (hf x List.mem_cons_self low (g.refl low)) fun a s hle ha => ?_
    have hrest : ∀ y ∈ xs, ∀ s', g.Le s s' → Keeps g s' (f y) Q :=
      fun y hy s' hle' => hf y (List.mem_cons_of_mem _ hy) s' (g.trans hle hle')
    -- The first answer has to survive all that the others do.
    refine Keeps.bind (ih hrest) fun as s' hle' has => Keeps.pure fun s'' _ hle'' b hb => ?_
    rcases List.mem_cons.1 hb with rfl | hb
    · exact hmono b s s'' (g.trans hle' hle'') ha
    · exact hmono b s' s'' hle'' (has b hb)

/-- Each answer belongs to the entry that it was computed from. -/
theorem mapM_forall₂ {f : β → ExceptT ε (StateM σ) α} {Q : β → α → σ → Prop} {xs : List β}
    (hmono : ∀ x a s s', g.Le s s' → Q x a s → Q x a s')
    (hf : ∀ x ∈ xs, ∀ s, g.Le low s → Keeps g s (f x) (Q x)) :
    Keeps g low (xs.mapM f) fun as s => List.Forall₂ (Q · · s) xs as := by
  induction xs generalizing low with
  | nil => exact Keeps.pure fun _ _ _ => .nil
  | cons x xs ih =>
    rw [List.mapM_cons]
    refine Keeps.bind (hf x List.mem_cons_self low (g.refl low)) fun a s hle ha => ?_
    have hrest : ∀ y ∈ xs, ∀ s', g.Le s s' → Keeps g s' (f y) (Q y) :=
      fun y hy s' hle' => hf y (List.mem_cons_of_mem _ hy) s' (g.trans hle hle')
    -- The first answer has to survive all that the others do.
    refine Keeps.bind (ih hrest) fun as s' hle' has => Keeps.pure fun s'' _ hle'' => ?_
    exact .cons (hmono x a s s'' (g.trans hle' hle'') ha)
      (has.imp fun y b hb => hmono y b s' s'' hle'' hb)

/-- The body of a loop may end it or go on. -/
theorem forIn {γ : Type} {f : β → γ → ExceptT ε (StateM σ) (ForInStep γ)} {xs : List β} {b : γ}
    (hf : ∀ x ∈ xs, ∀ b s, g.Le low s → Keeps g s (f x b) fun _ _ => True) :
    Keeps g low (ForIn.forIn xs b f) fun _ _ => True := by
  induction xs generalizing low b with
  | nil => exact Keeps.pure fun _ _ _ => trivial
  | cons x xs ih =>
    rw [List.forIn_cons]
    refine Keeps.bind (hf x List.mem_cons_self b low (g.refl low)) fun step s hle _ => ?_
    cases step with
    | done b' => exact Keeps.pure fun _ _ _ => trivial
    -- A further round starts above the state in which this one ended.
    | yield b' =>
      exact ih fun y hy b s' hle' => hf y (List.mem_cons_of_mem _ hy) b s' (g.trans hle hle')

/-- If the body never ends the loop, each round leaves what it is about, provided that this survives
moving upwards. -/
theorem forIn_each {γ : Type} {f : β → γ → ExceptT ε (StateM σ) (ForInStep γ)} {xs : List β} {b : γ}
    {Q : β → σ → Prop} (hmono : ∀ x s s', g.Le s s' → Q x s → Q x s')
    (hf : ∀ x ∈ xs, ∀ b s, g.Le low s →
      Keeps g s (f x b) fun step s => (∃ b', step = .yield b') ∧ Q x s) :
    Keeps g low (ForIn.forIn xs b f) fun _ s => ∀ x ∈ xs, Q x s := by
  induction xs generalizing low b with
  | nil =>
    apply Keeps.pure
    intro s _ _ x hx
    cases hx
  | cons x xs ih =>
    rw [List.forIn_cons]
    refine Keeps.bind (hf x List.mem_cons_self b low (g.refl low)) fun step s hle hstep => ?_
    obtain ⟨⟨b', rfl⟩, hx⟩ := hstep
    have hrest : ∀ y ∈ xs, ∀ b s', g.Le s s' →
        Keeps g s' (f y b) fun step s => (∃ b', step = .yield b') ∧ Q y s :=
      fun y hy b s' hle' => hf y (List.mem_cons_of_mem _ hy) b s' (g.trans hle hle')
    -- What the first round has left has to survive all the others.
    intro s' hinv hle'
    obtain ⟨hinv', hup, hans⟩ := ih hrest s' hinv hle'
    refine ⟨hinv', hup, fun b hb y hy => ?_⟩
    rcases List.mem_cons.1 hy with rfl | hy
    · exact hmono y s _ (g.trans hle' hup) hx
    · exact hans b hb y hy

end Keeps

end SchemaGraph
