import SchemaGraph.Proofs.Extraction.Failures
import SchemaGraph.Proofs.Extraction.Termination

/-!
# Passes that Finish What They Begin

While a schema is being resolved its entry has no fields, and a failure leaves it so for good.  A
module without load errors gives no failure to start with: every level of every base chain can be
read.  So requests succeed, what was under construction is filled, and between two requests of a
pass nothing is left unfinished.

- `Succeeds`: computations that answer from every state of a regime
- `Pass.finishing`: the regime in which only the schemas `underway` lack their fields
- `Pass.supports_request_finishing`, `Pass.succeeds_request`: requests stay in it, and succeed
- `Pass.describe_start`, `Pass.extract_start`: descriptions and extractions of their own
-/

namespace SchemaGraph

/-! ## §1 Computations that succeed -/

variable {σ ε α : Type} {g : Regime σ}

/-- From every state of the regime, the computation answers. -/
def Succeeds (g : Regime σ) (c : ExceptT ε (StateM σ) α) : Prop :=
  ∀ s, g.Inv s → ∃ a, (c s).1 = .ok a

/-- Whoever has no reason to fail succeeds. -/
theorem succeeds_iff {c : ExceptT ε (StateM σ) α} : Succeeds g c ↔ FailsOnlyIf g c False := by
  refine forall₂_congr fun s _ => ?_
  cases (c s).1 <;> simp

/-! ## §2 Modules that can be read -/

/-- No declaration carries a load error. -/
def Module.Loads (m : Module) : Prop := ∀ t ∈ m.types ++ m.imports, t.loadError = none

theorem Module.loads_ofManifest {path : String} {manifest : ModuleManifest} {keys : KeyOrder}
    (h : ∀ t ∈ manifest.types ++ manifest.imports, t.loadError = none) :
    (Module.ofManifest path manifest keys).Loads := by
  intro t ht
  rw [ofManifest, ← List.map_append] at ht
  obtain ⟨u, hu, rfl⟩ := List.mem_map.1 ht
  exact h u hu

namespace Pass

variable {p q : Pass} {low : State}

/-! ## §3 Fields -/

/-- **Flattening succeeds** where requests do, since every level of the chain can be read. -/
theorem Supports.succeeds_flattenWith {g : Regime State} {A : Request → Handle → State → Prop}
    {ask : Request → Run Handle} (hask : Supports g A ask) (hdone : ∀ x, Succeeds g (ask x))
    {p : Pass} (hloads : p.module.Loads) (fullName : String) :
    Succeeds g (p.flattenWith ask fullName) := by
  refine succeeds_iff.2 ((hask.failsOnlyIf_flattenWith
    (fun x => succeeds_iff.1 (hdone x)) p fullName).weaken ?_)
  rintro (⟨t, ht, hload⟩ | ⟨m, -, x, -, hfalse⟩)
  · exact hload (hloads t (Module.lookup?_eq_some (Module.lookup?_of_mem_baseChain ht)).1)
  · exact hfalse

/-! ## §4 What is under construction -/

/-- Every schema but those `underway` has the fields of its type. -/
def Finished (p : Pass) (underway : List String) (r : Registry) : Prop :=
  ∀ s ∈ r.schemas, s.fullName ∈ underway ∨
    p.Spelled (p.Points r.schemaNames r.variantNames) s.fullName s.fields

/-- Nothing has failed, nothing but the schemas `underway` is unfinished, and there is room for
less than `depth` more entries. -/
def finishing (p : Pass) (underway : List String) (depth : Nat) : Regime State where
  Inv := fun s => p.counting.Inv s ∧ s.1.failures = [] ∧ p.Finished underway s.1
    ∧ p.room s.1 < depth
  Le := p.counting.Le
  refl := p.counting.refl
  trans := p.counting.trans

section Writes

variable {r : Registry} {underway : List String} {fullName : String}

/-- A new schema is under construction. -/
theorem Finished.reserveSchema (hr : p.Finished underway r) (fullName : String) :
    p.Finished (fullName :: underway) (r.reserveSchema fullName) := by
  intro s hs
  rcases List.mem_append.1 hs with hs | hs
  · exact (hr s hs).imp (List.mem_cons_of_mem _)
      (Spelled.grow (by simp) (by simp))
  · obtain rfl := List.mem_singleton.1 hs
    exact .inl List.mem_cons_self

/-- Filling it finishes it. -/
theorem Finished.fillSchema (hr : p.Finished (fullName :: underway) r) {i : Nat}
    (hnodup : r.schemaNames.Nodup) (hi : r.schemaNames[i]? = some fullName) {fields : List Field}
    (hfields : p.Spelled (p.Points r.schemaNames r.variantNames) fullName fields) :
    p.Finished underway (r.fillSchema i fields) := by
  intro s hs
  rw [Registry.schemaNames_fillSchema, Registry.variantNames_fillSchema]
  rcases (mem_modify_iff ({ · with fields := fields }) (fun _ => rfl) hnodup hi).1 hs
    with ⟨hname, s', -, -, rfl⟩ | ⟨hname, hs⟩
  · exact .inr (hname ▸ hfields)
  · exact (hr s hs).imp_left fun hmem => (List.mem_cons.1 hmem).resolve_left hname

theorem Finished.reserveVariant (hr : p.Finished underway r) (fullName shortName : String)
    (special : Bool) : p.Finished underway (r.reserveVariant fullName shortName special) := by
  intro s hs
  exact (hr s hs).imp_right (Spelled.grow (by simp) (by simp))

theorem Finished.fillVariant (hr : p.Finished underway r) (i : Nat) (fields : List Field) :
    p.Finished underway (r.fillVariant i fields) := by
  intro s hs
  rw [Registry.schemaNames_fillVariant, Registry.variantNames_fillVariant]
  exact hr s hs

end Writes

/-! ## §5 Requests -/

section Requests

variable {underway : List String} {depth : Nat} {fullName : String}

/-- Of a computation that keeps names unique and declared, only failures and unfinished schemas
remain to be looked at. -/
theorem keeps_finishing {α : Type} {c : Run α} {Q : α → State → Prop}
    (hkeeps : Keeps p.counting low c Q)
    (hdone : ∀ s, (p.finishing underway depth).Inv s →
      (c s).2.1.failures = [] ∧ p.Finished underway (c s).2.1) :
    Keeps (p.finishing underway depth) low c Q := by
  intro s hinv hle
  obtain ⟨hend, hup, hans⟩ := hkeeps s hinv.1 hle
  obtain ⟨hfailures, hfinished⟩ := hdone s hinv
  exact ⟨⟨hend, hfailures, hfinished, Nat.lt_of_le_of_lt (room_le_of_le hup) hinv.2.2.2⟩, hup,
    hans⟩

/-- **Requesting a schema**: the resolver runs with the schema under construction and less room;
it succeeds, and the schema is filled. -/
theorem requestSchema_finishes {resolve : Run (List Field)}
    (hkeeps : ∀ low, Keeps (p.finishing (fullName :: underway) depth) low resolve
      fun fields s => p.Spelled (p.Meant · · s) fullName fields)
    (hdone : Succeeds (p.finishing (fullName :: underway) depth) resolve) {s : State}
    (hs : (p.finishing underway (depth + 1)).Inv s) :
    (∃ h, (Registry.requestSchema p.needsSchema fullName resolve s).1 = .ok h)
      ∧ (Registry.requestSchema p.needsSchema fullName resolve s).2.1.failures = []
      ∧ p.Finished underway (Registry.requestSchema p.needsSchema fullName resolve s).2.1 := by
  obtain ⟨r, notes⟩ := s
  obtain ⟨hcounting, hfailures, hfinished, hroom⟩ := hs
  have hnofailure : r.failure? fullName = none := by
    rw [Registry.failure?, hfailures]
    rfl
  -- Once the place is taken, the resolver starts in the regime with less room.
  have hreserved : r.schemaHandle? fullName = none → p.needsSchema fullName = true →
      (p.finishing (fullName :: underway) depth).Inv (r.reserveSchema fullName, notes) := by
    intro hnew hneeds
    obtain ⟨hcounting', hless⟩ := counting_reserveSchema hcounting hnofailure hnew hneeds
    exact ⟨hcounting', hfailures, hfinished.reserveSchema fullName,
      Nat.lt_of_lt_of_le hless (Nat.le_of_lt_succ hroom)⟩
  have houtcome := Registry.requestSchema_outcome p.needsSchema fullName resolve r notes
  generalize Registry.requestSchema p.needsSchema fullName resolve (r, notes) = result
    at houtcome ⊢
  cases houtcome with
  | failed e he => simp [hnofailure] at he
  | known h hknown => exact ⟨⟨h, rfl⟩, hfailures, hfinished⟩
  | notNeeded hneeds => exact ⟨⟨_, rfl⟩, hfailures, hfinished⟩
  | built fields r' notes' hnone hnew hneeds hrun =>
    have hinside := hreserved hnew hneeds
    -- The resolver has succeeded, and all that it has found is in the registry by now.
    obtain ⟨hinv', hle', hfields⟩ := hkeeps _ _ hinside (p.counting.refl _)
    rw [hrun] at hinv' hle' hfields
    obtain ⟨⟨hfaithful', -⟩, hfailures', hfinished', -⟩ := hinv'
    -- The place that was taken still has its name when it is filled.
    have hi : r'.schemaNames[r.schemas.length]? = some fullName :=
      getElem?_of_prefix hle'.1.1 Registry.getElem?_schemaNames_reserveSchema
    exact ⟨⟨_, rfl⟩, hfailures',
      hfinished'.fillSchema hfaithful'.schemaNames hi (hfields fields rfl)⟩
  | broken e r' notes' hnone hnew hneeds hrun =>
    -- A resolver that succeeds cannot have failed.
    obtain ⟨fields, hfields⟩ := hdone _ (hreserved hnew hneeds)
    rw [hrun] at hfields
    cases hfields

/-- **Requesting a variant**: its resolver runs with less room, too. -/
theorem requestVariant_finishes {shortName : String} {special : Bool} {resolve : Run (List Field)}
    (hkeeps : ∀ low, Keeps (p.finishing underway depth) low resolve fun _ _ => True)
    (hname : shortName ∈ p.module.shortNames) {s : State}
    (hs : (p.finishing underway (depth + 1)).Inv s) :
    (∃ h, (Registry.requestVariant fullName shortName special resolve s).1 = .ok h)
      ∧ (Registry.requestVariant fullName shortName special resolve s).2.1.failures = []
      ∧ p.Finished underway
          (Registry.requestVariant fullName shortName special resolve s).2.1 := by
  obtain ⟨r, notes⟩ := s
  obtain ⟨hcounting, hfailures, hfinished, hroom⟩ := hs
  -- Taking a place uses up room, so the resolver may make requests that nest less deep.
  have hreserved : r.variantHandle? shortName = none → (p.finishing underway depth).Inv
      (r.reserveVariant fullName shortName special, notes) := by
    intro hnew
    obtain ⟨hcounting', hless⟩ := counting_reserveVariant hcounting hnew hname fullName special
    exact ⟨hcounting', hfailures, hfinished.reserveVariant fullName shortName special,
      Nat.lt_of_lt_of_le hless (Nat.le_of_lt_succ hroom)⟩
  have houtcome := Registry.requestVariant_outcome fullName shortName special resolve r notes
  generalize Registry.requestVariant fullName shortName special resolve (r, notes) = result
    at houtcome ⊢
  cases houtcome with
  | known h hknown => exact ⟨⟨h, rfl⟩, hfailures, hfinished⟩
  | built fields r' notes' hnew hrun =>
    obtain ⟨⟨-, hfailures', hfinished', -⟩, -, -⟩ :=
      hkeeps _ _ (hreserved hnew) (p.counting.refl _)
    rw [hrun] at hfailures' hfinished'
    exact ⟨⟨_, rfl⟩, hfailures', hfinished'.fillVariant _ fields⟩
  -- A failure would be absorbed, but it leaves no mark in the registry.
  | absorbed e r' notes' hnew hrun =>
    obtain ⟨⟨-, hfailures', hfinished', -⟩, -, -⟩ :=
      hkeeps _ _ (hreserved hnew) (p.counting.refl _)
    rw [hrun] at hfailures' hfinished'
    exact ⟨⟨_, rfl⟩, hfailures', hfinished'⟩

/-- Fields go on meaning what they mean, so a way to make requests that finishes what it begins
supports a pass. -/
theorem supports_of_finishes (hagrees : p.Agrees q)
    (hdone : ∀ x s, (p.finishing underway depth).Inv s →
      (q.request depth x s).2.1.failures = [] ∧ p.Finished underway (q.request depth x s).2.1) :
    Supports (p.finishing underway depth) p.Meant (q.request depth) where
  notes := fun _ _ _ _ hr => ⟨hr, p.counting.refl _⟩
  mono := fun x h _ _ hle => Points.mono hle.1.1 hle.1.2 x h
  answers := fun x low => keeps_finishing (keeps_request_counting hagrees depth x low) (hdone x)

/-- **Requests finish what they begin.**  A resolver has taken room from the requests that its
fields make, so the induction is on the depth; without room there is no state to start from. -/
theorem request_finishes (hagrees : p.Agrees q) (hloads : p.module.Loads) (depth : Nat)
    (underway : List String) (x : Request) {s : State}
    (hs : (p.finishing underway depth).Inv s) :
    (∃ h, (q.request depth x s).1 = .ok h) ∧ (q.request depth x s).2.1.failures = []
      ∧ p.Finished underway (q.request depth x s).2.1 := by
  induction depth generalizing underway x s with
  | zero => exact absurd hs.2.2.2 (Nat.not_lt_zero _)
  | succ depth ih =>
    -- All requests of a resolver succeed by induction, whatever else is under construction.
    have hask : ∀ underway, Supports (p.finishing underway depth) p.Meant (q.request depth) :=
      fun underway => supports_of_finishes hagrees fun x s hs => (ih underway x hs).2
    have hresolve : ∀ underway fullName low, Keeps (p.finishing underway depth) low
        (q.flattenWith (q.request depth) fullName)
        fun fields s => p.Spelled (p.Meant · · s) fullName fields :=
      fun underway fullName low => ((hask underway).keeps_flattenWith q fullName low).weaken
        fun _ _ => Spelled.of_agrees hagrees
    cases x with
    | schema fullName =>
      unfold request
      rw [needsSchema_of_agrees hagrees]
      refine requestSchema_finishes (hresolve (fullName :: underway) fullName) ?_ hs
      exact (hask _).succeeds_flattenWith (fun x s hs => (ih _ x hs).1)
        (hagrees.1 ▸ hloads) fullName
    | variant fullName =>
      unfold request
      cases hlookup : q.module.lookup? fullName with
      | none => exact ⟨⟨noHandle, rfl⟩, hs.2.1, hs.2.2.1⟩
      | some t =>
        -- For a variant nothing is added to what is under way: only schemas can be requested again.
        rw [hagrees.1] at hlookup
        exact requestVariant_finishes (fun low => (hresolve underway fullName low).weaken
          fun _ _ _ => trivial) (Module.mem_shortNames_of_lookup? hlookup) hs

theorem supports_request_finishing (hagrees : p.Agrees q) (hloads : p.module.Loads)
    (underway : List String) (depth : Nat) :
    Supports (p.finishing underway depth) p.Meant (q.request depth) :=
  supports_of_finishes hagrees fun x _ hs => (request_finishes hagrees hloads depth underway x hs).2

theorem succeeds_request (hagrees : p.Agrees q) (hloads : p.module.Loads)
    (underway : List String) (depth : Nat) (x : Request) :
    Succeeds (p.finishing underway depth) (q.request depth x) :=
  fun _ hs => (request_finishes hagrees hloads depth underway x hs).1

end Requests

/-! ## §6 Extraction -/

/-- **Extraction succeeds** where requests do. -/
theorem Supports.succeeds_extract {g : Regime State} {A : Request → Handle → State → Prop}
    (hask : Supports g A (p.marked.request p.marked.depthBound))
    (hdone : ∀ x, Succeeds g (p.marked.request p.marked.depthBound x))
    (hloads : p.module.Loads) : Succeeds g p.extract := by
  -- Marking component members changes no declaration.
  have hmarked : p.marked.module.Loads := hloads
  have hflat : ∀ t : TypeInfo, FailsOnlyIf g
      (p.marked.flattenWith (p.marked.request p.marked.depthBound) t.fullName) False :=
    fun t => succeeds_iff.1 (hask.succeeds_flattenWith hdone hmarked t.fullName)
  refine succeeds_iff.2 ((hask.failsOnlyIf_extractWith (fun x => succeeds_iff.1 (hdone x))
    (fun _ => id) p hflat).weaken ?_)
  rintro ⟨-, t, -, hfalse⟩
  exact hfalse

/-! ## §7 Passes of their own -/

theorem finishing_start (p : Pass) : (p.finishing [] p.depthBound).Inv start := by
  refine ⟨counting_start p, rfl, fun s hs => ?_, ?_⟩
  · cases hs
  · exact Nat.lt_succ_of_le (Nat.le_trans (Nat.sub_le _ _) p.module.nameCounts_le)

/-- **A description of its own**: a declared type is described, and every schema that the fields
lead to is there with the fields of its type. -/
theorem describe_start (hloads : p.module.Loads) {fullName : String} {t : TypeInfo}
    (hlookup : p.module.lookup? fullName = some t) :
    ∃ fields s, p.describe fullName start = (.ok (some fields), s) ∧
      p.Spelled (p.Meant · · s) fullName fields ∧ p.Faithful s.1 ∧ p.Finished [] s.1 := by
  have hask := supports_request_finishing p.agrees_refl hloads [] p.depthBound
  have hdone := succeeds_request p.agrees_refl hloads [] p.depthBound
  -- Nothing has been asked for in the starting state, so nothing is left unfinished by others.
  obtain ⟨fields, hfields⟩ :=
    hask.succeeds_flattenWith hdone hloads fullName start p.finishing_start
  obtain ⟨hinv, -, hspelled⟩ :=
    hask.keeps_flattenWith p fullName start start p.finishing_start (p.counting.refl _)
  refine ⟨fields, (p.flatten fullName start).2, ?_, hspelled fields hfields, hinv.1.1,
    hinv.2.2.1⟩
  rw [describe_of_lookup? hlookup, run_tryCatch, run_map, show (p.flatten fullName start).1 = _ from
    hfields]
  rfl

/-- **An extraction of its own**: there is a cache; its definitions are those of a registry that
has failed nowhere and left nothing unfinished. -/
theorem extract_start (hloads : p.module.Loads) :
    ∃ c, (p.extract start).1 = .ok c ∧
      (c = .empty ∨ ∃ s, p.Collected (p.finishing [] p.depthBound) p.Meant c s) := by
  have hask : Supports (p.finishing [] p.depthBound) p.Meant
      (p.marked.request p.marked.depthBound) :=
    supports_request_finishing p.agrees_marked hloads [] p.depthBound
  have hdone : ∀ x, Succeeds (p.finishing [] p.depthBound)
      (p.marked.request p.marked.depthBound x) :=
    succeeds_request p.agrees_marked hloads [] p.depthBound
  -- It succeeds, and whatever it answers has been collected from its own requests.
  obtain ⟨c, hc⟩ := hask.succeeds_extract hdone hloads start p.finishing_start
  obtain ⟨-, -, hcollected⟩ := hask.keeps_extract start start p.finishing_start (p.counting.refl _)
  exact ⟨c, hc, hcollected c hc⟩

end Pass

end SchemaGraph
