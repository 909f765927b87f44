import Mathlib.Logic.Relation
import SchemaGraph.Proofs.Extraction.Agreement
import SchemaGraph.Proofs.Extraction.Flattening

/-!
# Where Failures Come From

A failure starts at a type whose members cannot be read.  From there it travels: to every type that
inherits from it, and to every type with a field that needs its schema.  It stops at the request of
a variant, and in discovery.  So for whatever a pass does there is a reason without which it cannot
fail, and the reason is found in the declarations.

- `FailsOnlyIf`: the reason of a computation, put together like the computation itself
- `Pass.ReachesUnreadable`: the way from a type to an unreadable one
- `Pass.Supports.failsOnlyIf_flattenWith`, `Pass.Supports.failsOnlyIf_extractWith`: the reasons of
  flattening and of extraction
-/

namespace SchemaGraph

/-! ## §1 Reasons to fail -/

variable {σ ε α β : Type} {g : Regime σ}

/-- From the states of the regime, the computation fails for this reason only. -/
def FailsOnlyIf (g : Regime σ) (c : ExceptT ε (StateM σ) α) (P : Prop) : Prop :=
  ∀ s, g.Inv s → ∀ e, (c s).1 = .error e → P

namespace FailsOnlyIf

variable {c : ExceptT ε (StateM σ) α} {Q : α → σ → Prop} {P P' : Prop}

theorem weaken (h : FailsOnlyIf g c P) (himp : P → P') : FailsOnlyIf g c P' :=
  fun s hs e he => himp (h s hs e he)

theorem pure (a : α) : FailsOnlyIf g (Pure.pure a : ExceptT ε (StateM σ) α) P := by
  intro s _ e he
  cases he

/-- **Sequencing**: either part may fail, the second one on an answer of the first. -/
theorem bind {f : α → ExceptT ε (StateM σ) β} (hkeeps : ∀ low, Keeps g low c Q)
    (hc : FailsOnlyIf g c P) (hf : ∀ a s, Q a s → FailsOnlyIf g (f a) P) :
    FailsOnlyIf g (c >>= f) P := by
  intro s hinv e he
  rw [run_bind] at he
  obtain ⟨hinv', -, hans⟩ := hkeeps s s hinv (g.refl s)
  cases hres : (c s).1 with
  | error e' => exact hc s hinv e' hres
  | ok a =>
    rw [hres] at he
    exact hf a _ (hans a hres) _ hinv' e he

theorem map (f : α → β) (hc : FailsOnlyIf g c P) : FailsOnlyIf g (f <$> c) P := by
  intro s hinv e he
  rw [run_map] at he
  cases hres : (c s).1 with
  | error e' => exact hc s hinv e' hres
  | ok a => simp [hres, Except.map] at he

theorem discard (hc : FailsOnlyIf g c P) : FailsOnlyIf g (Functor.discard c) P := map _ hc

/-- **Lists of computations**: one of them fails. -/
theorem mapM {f : β → ExceptT ε (StateM σ) α} {xs : List β} {P : β → Prop}
    (hkeeps : ∀ x ∈ xs, ∀ low, Keeps g low (f x) fun _ _ => True)
    (hf : ∀ x ∈ xs, FailsOnlyIf g (f x) (P x)) : FailsOnlyIf g (xs.mapM f) (∃ x ∈ xs, P x) := by
  induction xs with
  | nil => exact pure _
  | cons x xs ih =>
    have hkeeps' : ∀ y ∈ xs, ∀ low, Keeps g low (f y) fun _ _ => True :=
      fun y hy => hkeeps y (List.mem_cons_of_mem _ hy)
    have hrest := ih hkeeps' fun y hy => hf y (List.mem_cons_of_mem _ hy)
    rw [List.mapM_cons]
    -- The first computation fails for its own reason, or the failure is one of the rest.
    refine bind (hkeeps x List.mem_cons_self)
      ((hf x List.mem_cons_self).weaken fun hx => ⟨x, List.mem_cons_self, hx⟩) fun a _ _ => ?_
    refine bind (fun low => Keeps.mapM_any fun y hy s _ => hkeeps' y hy s)
      (hrest.weaken ?_) fun as _ _ => pure _
    rintro ⟨y, hy, hP⟩
    exact ⟨y, List.mem_cons_of_mem _ hy, hP⟩

theorem forIn {γ : Type} {f : β → γ → ExceptT ε (StateM σ) (ForInStep γ)} {xs : List β} {b : γ}
    {P : β → Prop} (hkeeps : ∀ x ∈ xs, ∀ b low, Keeps g low (f x b) fun _ _ => True)
    (hf : ∀ x ∈ xs, ∀ b, FailsOnlyIf g (f x b) (P x)) :
    FailsOnlyIf g (ForIn.forIn xs b f) (∃ x ∈ xs, P x) := by
  induction xs generalizing b with
  | nil => exact pure _
  | cons x xs ih =>
    -- The rest of the loop may start from any value that the first round leaves.
    have hrest : ∀ b, FailsOnlyIf g (ForIn.forIn xs b f) (∃ y ∈ x :: xs, P y) := by
      refine fun b => (ih (fun y hy => hkeeps y (List.mem_cons_of_mem _ hy))
        fun y hy => hf y (List.mem_cons_of_mem _ hy)).weaken ?_
      rintro ⟨y, hy, hP⟩
      exact ⟨y, List.mem_cons_of_mem _ hy, hP⟩
    rw [List.forIn_cons]
    refine bind (hkeeps x List.mem_cons_self b)
      ((hf x List.mem_cons_self b).weaken fun hx => ⟨x, List.mem_cons_self, hx⟩) fun step _ _ => ?_
    -- The body may end the loop or go on.
    cases step with
    | done b' => exact pure _
    | yield b' => exact hrest b'

end FailsOnlyIf

namespace Pass

variable {p : Pass} {g : Regime State} {A : Request → Handle → State → Prop}
  {ask : Request → Run Handle} {fullName : String} {Blame : Request → Prop}

/-! ## §2 Fields -/

section Fields

theorem failsOnlyIf_introspect (p : Pass) (fullName : String) :
    FailsOnlyIf g (p.introspect fullName)
      (∃ e, p.module.introspect p.conventions fullName = .error e) := by
  intro s _ e he
  rw [introspect_run] at he
  exact ⟨e, he⟩

/-- A member is to blame if one of its requests is. -/
theorem Supports.failsOnlyIf_classifyWith (hask : Supports g A ask)
    (hfail : ∀ x, FailsOnlyIf g (ask x) (Blame x)) (p : Pass) (m : Member) :
    FailsOnlyIf g (p.classifyWith ask m) (∃ x ∈ p.requestsOf m, Blame x) := by
  rw [classifyWith_eq]
  exact .map _ (.mapM (fun x _ low => (hask.answers x low).weaken fun _ _ _ => trivial)
    fun x _ => hfail x)

/-- Level by level: either the level cannot be read, or a member that is not shadowed is to
blame. -/
theorem Supports.failsOnlyIf_flattenLevels (hask : Supports g A ask)
    (hfail : ∀ x, FailsOnlyIf g (ask x) (Blame x)) {taken : List String} {levels : List TypeInfo}
    (hlevels : ∀ t ∈ levels, p.module.lookup? t.fullName = some t) :
    FailsOnlyIf g (p.flattenLevels ask taken levels)
      ((∃ t ∈ levels, t.loadError ≠ none) ∨
        ∃ m ∈ newcomers (·.name) taken (levels.flatMap p.keptMembers),
          ∃ x ∈ p.requestsOf m, Blame x) := by
  induction levels generalizing taken with
  | nil => exact .pure _
  | cons t levels ih =>
    have hlookup := hlevels t List.mem_cons_self
    have hkeeps : ∀ m low, Keeps g low (p.classifyWith ask m) fun _ _ => True :=
      fun m low => (hask.keeps_classifyWith p m low).weaken fun _ _ _ => trivial
    rw [List.flatMap_cons, newcomers_append]
    unfold flattenLevels
    refine .bind (keeps_introspect hask.notes p t.fullName)
      ((failsOnlyIf_introspect p t.fullName).weaken ?_) fun record _ hrecord => ?_
    -- A level is read by introspection, which fails for declarations with a load error only.
    · rintro ⟨e, he⟩
      refine .inl ⟨t, List.mem_cons_self, fun hload => ?_⟩
      obtain ⟨record, hrecord⟩ := introspect_of_readable hlookup hload
      rw [hrecord] at he
      cases he
    · obtain ⟨-, hmembers⟩ := introspect_eq_ok hlookup hrecord
      rw [hmembers]
      -- First the members of the level itself, then the levels above.
      refine .bind (fun low => Keeps.mapM_any fun m _ s _ => hkeeps m s)
        ((FailsOnlyIf.mapM (fun m _ => hkeeps m)
          fun m _ => hask.failsOnlyIf_classifyWith hfail p m).weaken ?_) fun fields _ _ => ?_
      · rintro ⟨m, hm, hblame⟩
        exact .inr ⟨m, List.mem_append_left _ hm, hblame⟩
      · refine .bind (hask.keeps_flattenLevels p _ levels)
          ((ih fun u hu => hlevels u (List.mem_cons_of_mem _ hu)).weaken ?_) fun rest _ _ => .pure _
        rintro (⟨u, hu, hload⟩ | ⟨m, hm, hblame⟩)
        · exact .inl ⟨u, List.mem_cons_of_mem _ hu, hload⟩
        · refine .inr ⟨m, List.mem_append_right _ ?_, hblame⟩
          -- The names of this level are taken further up; in which order they are listed makes no
          -- difference.
          rwa [newcomers_congr fun name => ?_]
          rw [keysWith, List.mem_append, List.mem_append, or_comm]

/-- **Flattening** fails only if a level of the base chain cannot be read, or a member that is not
shadowed is to blame. -/
theorem Supports.failsOnlyIf_flattenWith (hask : Supports g A ask)
    (hfail : ∀ x, FailsOnlyIf g (ask x) (Blame x)) (p : Pass) (fullName : String) :
    FailsOnlyIf g (p.flattenWith ask fullName)
      ((∃ t ∈ p.module.baseChain p.conventions.universalRoot fullName, t.loadError ≠ none) ∨
        ∃ m ∈ p.shownMembers fullName, ∃ x ∈ p.requestsOf m, Blame x) :=
  hask.failsOnlyIf_flattenLevels hfail fun _ => Module.lookup?_of_mem_baseChain

end Fields

/-! ## §3 Extraction -/

section Extraction

/-- Discovery passes over what it cannot read. -/
theorem failsOnlyIf_discover (p : Pass) : FailsOnlyIf g p.discover False := by
  intro s _ e he
  obtain ⟨notes, hrun, -⟩ := p.discover_run s
  rw [hrun] at he
  cases he

theorem Supports.failsOnlyIf_discard (hask : Supports g A ask)
    (hfail : ∀ x, FailsOnlyIf g (ask x) (Blame x)) (x : Request) :
    FailsOnlyIf g (do discard (ask x); return ForInStep.yield PUnit.unit :
      Run (ForInStep PUnit)) (Blame x) :=
  .bind (fun low => Keeps.discard (hask.answers x low)) (.discard (hfail x)) fun _ _ _ => .pure _

/-- Where no variant is to blame, requesting variants does not fail. -/
theorem Supports.failsOnlyIf_requestComponentsWith (hask : Supports g A ask)
    (hfail : ∀ x, FailsOnlyIf g (ask x) (Blame x)) (hvariant : ∀ t, ¬ Blame (.variant t))
    (p : Pass) : FailsOnlyIf g (p.requestComponentsWith ask) False := by
  unfold requestComponentsWith
  refine .bind (fun low => Keeps.forIn fun fullName _ _ s _ => hask.keeps_discard _ s)
    (.weaken (.forIn (fun fullName _ _ low => hask.keeps_discard _ low)
      fun fullName _ _ => hask.failsOnlyIf_discard hfail (.variant fullName)) ?_)
    fun _ _ _ => .pure _
  rintro ⟨t, -, ht⟩
  exact hvariant t ht

theorem Supports.failsOnlyIf_requestPropertiesWith (hask : Supports g A ask)
    (hfail : ∀ x, FailsOnlyIf g (ask x) (Blame x)) (hvariant : ∀ t, ¬ Blame (.variant t))
    (p : Pass) : FailsOnlyIf g (p.requestPropertiesWith ask) False := by
  unfold requestPropertiesWith
  refine .bind (fun low => Keeps.forIn fun t _ _ s _ => hask.keeps_propertiesRound p t s)
    (.weaken (P := ∃ t ∈ p.module.types, Blame (.variant t.fullName))
      (.forIn (fun t _ _ low => hask.keeps_propertiesRound p t low) fun t _ _ => ?_) ?_)
    fun _ _ _ => .pure _
  -- A round may request one variant, and such a request never fails.
  · split
    · exact hask.failsOnlyIf_discard hfail (.variant t.fullName)
    · exact .pure _
  · rintro ⟨t, -, ht⟩
    exact hvariant t.fullName ht

/-- Definitions fail only if one of the definition types does. -/
theorem Supports.failsOnlyIf_definitionsWith (hask : Supports g A ask) {P : TypeInfo → Prop}
    (p : Pass) (hflat : ∀ t, FailsOnlyIf g (p.flattenWith ask t.fullName) (P t)) :
    FailsOnlyIf g (p.definitionsWith ask) (∃ t ∈ p.definitionTypes, P t) := by
  have hcandidate : ∀ t, FailsOnlyIf g (p.definitionWith? ask t) (p.isReadable t = true ∧ P t) := by
    intro t
    unfold definitionWith?
    -- A type that was not noted is passed over, and the others can be read.
    refine .bind (Q := fun _ _ => True) (fun low => (Keeps.get low).weaken fun _ _ _ => trivial)
      (fun s _ e he => by cases he) fun noted _ _ => ?_
    split
    · exact .pure _
    next hthere =>
      have hreadable := isReadable_of_noted? (Bool.eq_false_iff.2 hthere)
      exact .bind (hask.keeps_flattenWith p t.fullName)
        ((hflat t).weaken fun h => ⟨hreadable, h⟩) fun _ _ _ => .pure _
  unfold definitionsWith
  -- What the candidates fail for is that of the definition types, which are the readable ones.
  refine .bind (fun low => Keeps.mapM_any fun t _ s _ => hask.keeps_definition p t s)
    ((FailsOnlyIf.mapM (fun t _ low => hask.keeps_definition p t low)
      fun t _ => hcandidate t).weaken ?_) fun _ _ _ => .pure _
  rintro ⟨t, ht, hreadable, h⟩
  exact ⟨t, List.mem_filter.2 ⟨ht, hreadable⟩, h⟩

/-- **Extraction** fails only if one of the definition types does. -/
theorem Supports.failsOnlyIf_extractWith (hask : Supports g A ask)
    (hfail : ∀ x, FailsOnlyIf g (ask x) (Blame x)) (hvariant : ∀ t, ¬ Blame (.variant t))
    {P : TypeInfo → Prop} (p : Pass)
    (hflat : ∀ t, FailsOnlyIf g (p.marked.flattenWith ask t.fullName) (P t)) :
    FailsOnlyIf g (p.extractWith ask)
      ((p.module.lookup? p.conventions.definitionBase).isSome ∧ ∃ t ∈ p.definitionTypes, P t) := by
  unfold extractWith
  split
  · exact .pure _
  next hdeclared =>
    have hsome : (p.module.lookup? p.conventions.definitionBase).isSome := by
      rwa [Option.isSome_iff_ne_none, ne_eq, ← Option.isNone_iff_eq_none]
    -- Discovery absorbs its failures, and requests for variants have none.
    refine .bind (fun low => Keeps.discard (keeps_discover hask.notes p.marked low))
      ((failsOnlyIf_discover p.marked).discard.weaken False.elim) fun _ _ _ => ?_
    refine .bind (hask.keeps_requestComponentsWith p.marked)
      ((hask.failsOnlyIf_requestComponentsWith hfail hvariant p.marked).weaken False.elim)
      fun _ _ _ => ?_
    refine .bind (hask.keeps_requestPropertiesWith p.marked)
      ((hask.failsOnlyIf_requestPropertiesWith hfail hvariant p.marked).weaken False.elim)
      fun _ _ _ => ?_
    refine .bind (hask.keeps_definitionsWith p.marked)
      ((hask.failsOnlyIf_definitionsWith p.marked hflat).weaken fun h => ⟨hsome, h⟩)
      fun _ _ _ => ?_
    exact .bind (Q := fun _ _ => True) (fun low => (Keeps.get low).weaken fun _ _ _ => trivial)
      (fun s _ e he => by cases he) fun _ _ _ => .pure _

end Extraction

/-! ## §4 The way to an unreadable type -/

/-- A field of the first type needs the schema of the second: a member that is not shadowed has
the second type or a list of it. -/
def SchemaStep (p : Pass) (a b : String) : Prop :=
  p.needsSchema b = true ∧ ∃ place m, p.FirstMet a place m ∧ m.type.unwrapList = .named b

/-- A level of the base chain cannot be read. -/
def InheritsUnreadable (p : Pass) (fullName : String) : Prop :=
  ∃ i t, p.module.IsLevel p.conventions.universalRoot fullName i t ∧ t.loadError ≠ none

/-- Steps from fields to schemas lead to a type that cannot be read, or whose base types cannot. -/
def ReachesUnreadable (p : Pass) (fullName : String) : Prop :=
  ∃ b, Relation.ReflTransGen p.SchemaStep fullName b ∧ p.InheritsUnreadable b

/-- A request is to blame if it is for a schema that leads to an unreadable type.  Variants never
are. -/
def Blames (p : Pass) : Request → Prop
  | .schema fullName => p.needsSchema fullName = true ∧ p.ReachesUnreadable fullName
  | .variant _ => False

theorem inheritsUnreadable_iff : p.InheritsUnreadable fullName ↔
    ∃ t ∈ p.module.baseChain p.conventions.universalRoot fullName, t.loadError ≠ none := by
  simp only [InheritsUnreadable, ← Module.getElem?_baseChain, List.mem_iff_getElem?]
  constructor
  · rintro ⟨i, t, ht, hload⟩
    exact ⟨t, ⟨i, ht⟩, hload⟩
  · rintro ⟨t, ⟨i, ht⟩, hload⟩
    exact ⟨i, t, ht, hload⟩

theorem unwrapList_of_mem_requestsOf {m : Member} {typeName : String}
    (h : .schema typeName ∈ p.requestsOf m) : m.type.unwrapList = .named typeName := by
  unfold requestsOf at h
  cases htype : m.type with
  | named typeName' =>
    simp only [htype] at h
    split at h
    -- A scalar or an enumeration is classified without a request.
    · cases List.mem_singleton.1 h
      rfl
    · cases h
  | list item =>
    cases item with
    | list item => simp [htype] at h
    | named itemType =>
      -- The variants of a polymorphic list are no schemas.
      have hvariant : Request.schema typeName ∉ (if p.isPolymorphic itemType then
          (p.variantCandidates itemType).map Request.variant else []) := by
        split <;> simp
      simp only [htype, List.mem_append, hvariant, false_or] at h
      -- Only the schema of the item type is left, and a scalar has none.
      split at h
      · cases h
      · cases List.mem_singleton.1 h
        rfl

/-- Whoever has a member that is to blame leads to an unreadable type as well. -/
theorem reachesUnreadable_of_blames {m : Member} {x : Request} (hm : m ∈ p.shownMembers fullName)
    (hx : x ∈ p.requestsOf m) (hblame : p.Blames x) : p.ReachesUnreadable fullName := by
  cases x with
  | variant _ => exact hblame.elim
  | schema typeName =>
    obtain ⟨hneeds, b, hway, hb⟩ := hblame
    obtain ⟨places, hplaces, -⟩ := p.exists_places fullName
    obtain ⟨place, -, hplace⟩ := exists_mem_of_forall₂ hplaces hm
    exact ⟨b, .head ⟨hneeds, place, m, hplace, unwrapList_of_mem_requestsOf hx⟩ hway, hb⟩

/-- **Failures are explained**: where requests fail with good reason only, so does flattening. -/
theorem Supports.failsOnlyIf_reachesUnreadable (hask : Supports g A ask)
    (hfail : ∀ x, FailsOnlyIf g (ask x) (p.Blames x)) (fullName : String) :
    FailsOnlyIf g (p.flattenWith ask fullName) (p.ReachesUnreadable fullName) := by
  refine (hask.failsOnlyIf_flattenWith hfail p fullName).weaken ?_
  rintro (hlevel | ⟨m, hm, x, hx, hblame⟩)
  · exact ⟨fullName, .refl, inheritsUnreadable_iff.2 hlevel⟩
  · exact reachesUnreadable_of_blames hm hx hblame

end Pass

end SchemaGraph
