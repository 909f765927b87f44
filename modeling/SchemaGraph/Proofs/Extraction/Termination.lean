import Mathlib.Data.Finset.Card
import Mathlib.Data.List.Dedup
import SchemaGraph.Proofs.Extraction.Agreement
import SchemaGraph.Proofs.Extraction.Discovery
import SchemaGraph.Proofs.Extraction.Fidelity
import SchemaGraph.Proofs.Module.SubtypeTable

/-!
# Termination

Requests resolve fields and fields make requests, with no argument that gets smaller.  What gets
smaller is the room in the registry: whoever resolves has taken the place of a declared name, and
no name takes two places.  So requests nest no deeper than there are distinct names, and a pass goes
the same way whatever would happen further down.  The loops next to the requests, over base chains,
subtypes and the queue of discovery, end by themselves.

- `Pass.agree_watched`: no request nests too deep or finds too many entries
- `Pass.agree_performWatched`: neither does any that an operation makes
- `Pass.session_ends`: every operation of every session ends, and the arenas stay small
-/

namespace SchemaGraph

/-! ## §1 Room for names -/

namespace Module

variable {m : Module} {names : List String}

/-- The number of different full names of declarations. -/
def fullNameCount (m : Module) : Nat := m.fullNames.toFinset.card

/-- The number of different short names of declarations. -/
def shortNameCount (m : Module) : Nat := m.shortNames.toFinset.card

theorem length_le_card_toFinset {xs ys : List String} (hnodup : xs.Nodup) (hsubset : xs ⊆ ys) :
    xs.length ≤ ys.toFinset.card := by
  rw [← List.toFinset_card_of_nodup hnodup]
  exact Finset.card_le_card fun x hx => by
    rw [List.mem_toFinset] at hx ⊢
    exact hsubset hx

theorem nameCounts_le (m : Module) :
    m.fullNameCount + m.shortNameCount ≤ 2 * m.declarationCount := by
  have hfull := List.toFinset_card_le m.fullNames
  have hshort := List.toFinset_card_le m.shortNames
  rw [length_fullNames] at hfull
  have hlength : m.shortNames.length = m.declarationCount := by
    simp [shortNames, declarationCount]
  rw [hlength] at hshort
  unfold fullNameCount shortNameCount
  omega

end Module

namespace Pass

variable {p q : Pass} {low s : State}

/-- Variants have the short names of declarations. -/
def shortNaming (p : Pass) : Regime State where
  Inv := fun s => s.1.variantNames ⊆ p.module.shortNames
  Le := fun _ _ => True
  refl := fun _ => trivial
  trans := fun _ _ => trivial

/-- Only a variant that takes its place adds a short name, and this is the name of a declaration. -/
theorem allowsRequests_shortNaming (hagrees : p.Agrees q) :
    q.AllowsRequests p.shortNaming where
  notes := fun _ _ _ _ hinv => ⟨hinv, trivial⟩
  reserveSchema := fun _ _ _ hinv => ⟨hinv, trivial⟩
  fillSchema := fun _ _ _ _ hinv => ⟨hinv, trivial⟩
  recordFailure := fun _ _ _ _ hinv => ⟨hinv, trivial⟩
  reserveVariant := by
    intro fullName t special hlookup r notes hinv
    rw [hagrees.1] at hlookup
    refine ⟨?_, trivial⟩
    show (r.reserveVariant fullName t.name special).variantNames ⊆ p.module.shortNames
    rw [Registry.variantNames_reserveVariant]
    exact List.append_subset.2 ⟨hinv, by simpa using Module.mem_shortNames_of_lookup? hlookup⟩
  fillVariant := by
    intro i fields r notes hinv
    refine ⟨?_, trivial⟩
    show (r.fillVariant i fields).variantNames ⊆ p.module.shortNames
    rw [Registry.variantNames_fillVariant]
    exact hinv

/-- Names are unique and declared. -/
def counting (p : Pass) : Regime State := p.fidelity.and p.shortNaming

theorem keeps_request_counting (hagrees : p.Agrees q) (depth : Nat) (x : Request) (low : State) :
    Keeps p.counting low (q.request depth x) (p.Meant x) :=
  have hshort := (allowsRequests_shortNaming hagrees).supports depth
  ((meant_request hagrees depth x low).and (hshort.answers x low)).weaken fun _ _ h => h.1

theorem supports_counting (hagrees : p.Agrees q) (depth : Nat) :
    Supports p.counting (fun _ _ _ => True) (q.request depth) where
  notes := fun _ _ _ _ hr => ⟨hr, ⟨List.prefix_refl _, List.prefix_refl _⟩, trivial⟩
  mono := fun _ _ _ _ _ _ => trivial
  answers := fun x low =>
    (keeps_request_counting hagrees depth x low).weaken fun _ _ _ => trivial

/-- The arenas have no more entries than there are names for them. -/
def IsRoomy (p : Pass) (r : Registry) : Prop :=
  r.schemas.length ≤ p.module.fullNameCount ∧ r.variants.length ≤ p.module.shortNameCount

instance (p : Pass) (r : Registry) : Decidable (p.IsRoomy r) :=
  inferInstanceAs (Decidable (_ ∧ _))

/-- The number of places that are left. -/
def room (p : Pass) (r : Registry) : Nat :=
  p.module.fullNameCount + p.module.shortNameCount - (r.schemas.length + r.variants.length)

theorem isRoomy_of_inv (hs : p.counting.Inv s) : p.IsRoomy s.1 := by
  obtain ⟨hfaithful, hshort⟩ := hs
  -- Distinct names among the declared ones cannot be more than these.
  have hfull : s.1.schemaNames ⊆ p.module.fullNames := by
    intro name hname
    have hneeds := hfaithful.needed name hname
    unfold needsSchema at hneeds
    cases hlookup : p.module.lookup? name with
    | none => simp [hlookup] at hneeds
    | some t => exact Module.mem_fullNames_of_lookup? hlookup
  have hschemas := Module.length_le_card_toFinset hfaithful.schemaNames hfull
  have hvariants := Module.length_le_card_toFinset hfaithful.variantNames hshort
  rw [Registry.schemaNames, List.length_map] at hschemas
  rw [Registry.variantNames, List.length_map] at hvariants
  exact ⟨hschemas, hvariants⟩

theorem sizes_of_le {s s' : State} (h : p.counting.Le s s') :
    s.1.schemas.length ≤ s'.1.schemas.length ∧ s.1.variants.length ≤ s'.1.variants.length := by
  have hschemas := h.1.1.length_le
  have hvariants := h.1.2.length_le
  simp only [Registry.schemaNames, Registry.variantNames, List.length_map] at hschemas hvariants
  exact ⟨hschemas, hvariants⟩

/-- Room is never regained. -/
theorem room_le_of_le {s s' : State} (h : p.counting.Le s s') : p.room s'.1 ≤ p.room s.1 := by
  have hsizes := sizes_of_le h
  unfold room
  omega

/-- Taking a place takes room. -/
theorem room_lt_of_lt {r r' : Registry} (hroomy : p.IsRoomy r')
    (hlt : r.schemas.length + r.variants.length < r'.schemas.length + r'.variants.length) :
    p.room r' < p.room r := by
  obtain ⟨hschemas, hvariants⟩ := hroomy
  unfold room
  omega

theorem counting_start (p : Pass) : p.counting.Inv start :=
  ⟨faithful_empty p, List.nil_subset _⟩

/-- A schema that is built takes a place. -/
theorem counting_reserveSchema {r : Registry} {notes : List String} {fullName : String}
    (hs : p.counting.Inv (r, notes)) (hfailed : r.failure? fullName = none)
    (hnew : r.schemaHandle? fullName = none) (hneeds : p.needsSchema fullName = true) :
    p.counting.Inv (r.reserveSchema fullName, notes)
      ∧ p.room (r.reserveSchema fullName) < p.room r := by
  obtain ⟨hfaithful, hshort⟩ := hs
  have habsent := (Registry.schemaHandle?_eq_none.1 hnew).resolve_left (by simp [hfailed])
  have hreserved : p.counting.Inv (r.reserveSchema fullName, notes) :=
    ⟨hfaithful.reserveSchema habsent hneeds, hshort⟩
  exact ⟨hreserved, room_lt_of_lt (isRoomy_of_inv hreserved) (by simp [Registry.reserveSchema])⟩

/-- So does a variant. -/
theorem counting_reserveVariant {r : Registry} {notes : List String} {shortName : String}
    (hs : p.counting.Inv (r, notes)) (hnew : r.variantHandle? shortName = none)
    (hname : shortName ∈ p.module.shortNames) (fullName : String) (special : Bool) :
    p.counting.Inv (r.reserveVariant fullName shortName special, notes)
      ∧ p.room (r.reserveVariant fullName shortName special) < p.room r := by
  obtain ⟨hfaithful, hshort⟩ := hs
  have hreserved : p.counting.Inv (r.reserveVariant fullName shortName special, notes) := by
    -- The names of variants stay unique and stay among the declared short names.
    refine ⟨hfaithful.reserveVariant (Registry.variantHandle?_eq_none.1 hnew) special, ?_⟩
    show (r.reserveVariant fullName shortName special).variantNames ⊆ _
    rw [Registry.variantNames_reserveVariant]
    exact List.append_subset.2 ⟨hshort, by simpa using hname⟩
  exact ⟨hreserved, room_lt_of_lt (isRoomy_of_inv hreserved) (by simp [Registry.reserveVariant])⟩

/-! ## §2 Requests under watch -/

/-- Makes a request as a pass does, under watch: the alarm goes off if resolvers nest more than
`depth` deep, or if a request ever finds more entries than there are names for them. -/
def watched (p : Pass) (alarm : Request → Run Handle) : (depth : Nat) → Request → Run Handle
  | 0, x => alarm x
  | depth + 1, x => fun s =>
    if p.IsRoomy s.1 then
      match x with
      | .schema fullName =>
        Registry.requestSchema p.needsSchema fullName
          (p.flattenWith (p.watched alarm depth) fullName) s
      | .variant fullName =>
        match p.module.lookup? fullName with
        | none => (pure noHandle : Run Handle) s
        | some t =>
          Registry.requestVariant fullName t.name (p.componentMembers.contains fullName)
            (p.flattenWith (p.watched alarm depth) fullName) s
    else alarm x s

/-- A resolver matters only where it runs. -/
theorem requestSchema_congr {needsSchema : String → Bool} {fullName : String}
    {resolve resolve' : Run (List Field)} {r : Registry} {notes : List String}
    (h : r.failure? fullName = none → r.schemaHandle? fullName = none →
      needsSchema fullName = true →
      resolve (r.reserveSchema fullName, notes) = resolve' (r.reserveSchema fullName, notes)) :
    Registry.requestSchema needsSchema fullName resolve (r, notes) =
      Registry.requestSchema needsSchema fullName resolve' (r, notes) := by
  unfold Registry.requestSchema
  cases hfailed : r.failure? fullName with
  | some e => simp only [hfailed]
  | none =>
    cases hnew : r.schemaHandle? fullName with
    | some h => simp only [hfailed, hnew]
    | none =>
      cases hneeds : needsSchema fullName with
      -- The resolvers are run from one state only, in which they do the same.
      | false => simp only [hfailed, hnew, Bool.false_eq_true, if_false]
      | true => simp only [h hfailed hnew hneeds]

theorem requestVariant_congr {fullName shortName : String} {special : Bool}
    {resolve resolve' : Run (List Field)} {r : Registry} {notes : List String}
    (h : r.variantHandle? shortName = none →
      resolve (r.reserveVariant fullName shortName special, notes) =
        resolve' (r.reserveVariant fullName shortName special, notes)) :
    Registry.requestVariant fullName shortName special resolve (r, notes) =
      Registry.requestVariant fullName shortName special resolve' (r, notes) := by
  unfold Registry.requestVariant
  cases hnew : r.variantHandle? shortName with
  | some h => simp only [hnew]
  | none => simp only [h hnew]

/-- **No alarm goes off**: every resolver has taken room from the requests that its fields make, so
these are watched from states with less room.  The induction is on the depth. -/
theorem agree_watched (hagrees : p.Agrees q) (alarm : Request → Run Handle) {depth depth' : Nat}
    {low : State} (hdepth : p.room low.1 < depth) (hdepth' : p.room low.1 < depth')
    (x : Request) : Agree p.counting low (q.request depth x) (q.watched alarm depth' x) := by
  induction depth generalizing depth' low x with
  | zero => omega
  | succ depth ih =>
    obtain ⟨depth', rfl⟩ : ∃ d, depth' = d + 1 := ⟨depth' - 1, by omega⟩
    rintro ⟨r, notes⟩ hinv hle
    have hroomy : q.IsRoomy r := by
      have h := isRoomy_of_inv hinv
      unfold IsRoomy at h ⊢
      rwa [hagrees.1]
    have hlow := room_le_of_le hle
    -- Once a place is taken, there is less room for the requests of the resolver.
    have hinside : ∀ (fullName : String) (r' : Registry),
        p.counting.Inv (r', notes) ∧ p.room r' < p.room r →
        q.flattenWith (q.request depth) fullName (r', notes) =
          q.flattenWith (q.watched alarm depth') fullName (r', notes) := by
      rintro fullName r' ⟨hinv', hless⟩
      have hless : p.room r' < p.room low.1 := Nat.lt_of_lt_of_le hless hlow
      have hagree : ∀ x,
          Agree p.counting (r', notes) (q.request depth x) (q.watched alarm depth' x) :=
        ih (Nat.lt_of_lt_of_le hless (Nat.le_of_lt_succ hdepth))
          (Nat.lt_of_lt_of_le hless (Nat.le_of_lt_succ hdepth'))
      exact (supports_counting hagrees depth).agree_flattenWith hagree q fullName _ hinv'
        (p.counting.refl _)
    cases x with
    | schema fullName =>
      -- Neither way sets off the alarm, so both come to the same request of the registry.
      simp only [request, watched, if_pos hroomy, needsSchema_of_agrees hagrees]
      exact requestSchema_congr fun hfailed hnew hneeds =>
        hinside fullName _ (counting_reserveSchema hinv hfailed hnew hneeds)
    | variant fullName =>
      simp only [request, watched, if_pos hroomy]
      cases hlookup : q.module.lookup? fullName with
      | none => rfl
      | some t =>
        rw [hagrees.1] at hlookup
        exact requestVariant_congr fun hnew => hinside fullName _
          (counting_reserveVariant hinv hnew (Module.mem_shortNames_of_lookup? hlookup) _ _)

/-! ## §3 Operations -/

/-- The fields of a declared type, with a way to make requests. -/
def describeWith (p : Pass) (ask : Request → Run Handle) (fullName : String) :
    Run (Option (List Field)) :=
  match p.module.lookup? fullName with
  | none => return none
  | some _ => MonadExcept.tryCatch (some <$> p.flattenWith ask fullName) fun _ => return none

/-- Performs an operation with a way to make requests, and one once component members are
marked. -/
def performWith (p : Pass) (ask askMarked : Request → Run Handle) : Operation → Run Reply
  | .discover => .names <$> p.discover
  | .flattenFields fullName => .fields <$> p.flattenWith ask fullName
  | .classify m => .field <$> p.classifyWith ask m
  | .schemaForType fullName => .schema <$> ask (.schema fullName)
  | .registerVariant fullName => .variant <$> ask (.variant fullName)
  | .describe fullName => .description <$> p.describeWith ask fullName
  | .extract => .cache <$> p.extractWith askMarked

theorem describe_eq (p : Pass) (fullName : String) :
    p.describe fullName = p.describeWith (p.request p.depthBound) fullName := by
  cases hlookup : p.module.lookup? fullName with
  | none => simp only [describe, describeWith, hlookup]
  | some t =>
    rw [describe_of_lookup? hlookup]
    simp only [describeWith, hlookup]
    rfl

/-- An operation of a pass makes requests up to the bound. -/
theorem perform_eq (p : Pass) (op : Operation) :
    p.perform op =
      p.performWith (p.request p.depthBound) (p.marked.request p.marked.depthBound) op := by
  cases op with
  | describe fullName => simp only [perform, performWith, describe_eq]
  | _ => rfl

section Operations

variable {g : Regime State} {A : Request → Handle → State → Prop} {ask ask' : Request → Run Handle}

theorem Supports.agree_describeWith (hask : Supports g A ask)
    (hagree : ∀ x, Agree g low (ask x) (ask' x)) (p : Pass) (fullName : String) :
    Agree g low (p.describeWith ask fullName) (p.describeWith ask' fullName) := by
  unfold describeWith
  cases p.module.lookup? fullName with
  | none => exact .refl _
  | some t => exact .tryCatch _ (.map some (hask.agree_flattenWith hagree p fullName))

/-- Loops that request variants, one after the other. -/
theorem Supports.agree_discard (hask : Supports g A ask)
    (hagree : ∀ x, Agree g low (ask x) (ask' x)) (x : Request) :
    Agree g low (do discard (ask x); return ForInStep.yield PUnit.unit)
      (do discard (ask' x); return ForInStep.yield PUnit.unit) :=
  .bind (Keeps.discard (hask.answers x low)) (.discard (hagree x)) fun _ _ _ => .refl _

theorem Supports.agree_requestComponentsWith (hask : Supports g A ask)
    (hagree : ∀ x, Agree g low (ask x) (ask' x)) (p : Pass) :
    Agree g low (p.requestComponentsWith ask) (p.requestComponentsWith ask') := by
  have hkeeps : ∀ fullName ∈ p.familyMembers.filter p.isVariantCandidate, ∀ (_ : PUnit) s,
      g.Le low s → Keeps g s (do discard (ask (.variant fullName))
                                 return ForInStep.yield PUnit.unit) fun _ _ => True :=
    fun fullName _ _ s _ => hask.keeps_discard (.variant fullName) s
  unfold requestComponentsWith
  exact .bind (Keeps.forIn hkeeps)
    (.forIn hkeeps fun fullName _ _ => hask.agree_discard hagree (.variant fullName))
    fun _ _ _ => .refl _

theorem Supports.agree_requestPropertiesWith (hask : Supports g A ask)
    (hagree : ∀ x, Agree g low (ask x) (ask' x)) (p : Pass) :
    Agree g low (p.requestPropertiesWith ask) (p.requestPropertiesWith ask') := by
  unfold requestPropertiesWith
  refine .bind (Keeps.forIn fun t _ _ s _ => hask.keeps_propertiesRound p t s)
    (.forIn (fun t _ _ s _ => hask.keeps_propertiesRound p t s) fun t _ _ => ?_)
    fun _ _ _ => .refl _
  split
  · exact hask.agree_discard hagree (.variant t.fullName)
  · exact .refl _

theorem Supports.agree_definitionsWith (hask : Supports g A ask)
    (hagree : ∀ x, Agree g low (ask x) (ask' x)) (p : Pass) :
    Agree g low (p.definitionsWith ask) (p.definitionsWith ask') := by
  have hkeeps : ∀ t ∈ p.definitionCandidates, ∀ s, g.Le low s →
      Keeps g s (p.definitionWith? ask t) fun _ _ => True :=
    fun t _ s _ => hask.keeps_definition p t s
  unfold definitionsWith
  -- One after the other, the candidates are answered alike; noted types are the same in both ways.
  refine .bind (Keeps.mapM_any hkeeps) (.mapM hkeeps fun t _ => ?_) fun _ _ _ => .refl _
  unfold definitionWith?
  refine .bind (Keeps.get low) (.refl _) fun noted s hle => ?_
  split
  · exact .refl _
  · exact .bind (hask.keeps_flattenWith p t.fullName s)
      (hask.agree_flattenWith (fun q => (hagree q).above hle) p t.fullName) fun _ _ _ => .refl _

/-- **Extraction**: its steps follow each other, so each has to agree from where the one before it
may end. -/
theorem Supports.agree_extractWith (hask : Supports g A (p.marked.request p.marked.depthBound))
    (hagree : ∀ x, Agree g low (p.marked.request p.marked.depthBound x) (ask' x)) :
    Agree g low (p.extractWith (p.marked.request p.marked.depthBound)) (p.extractWith ask') := by
  unfold extractWith
  split
  · exact .refl _
  · refine .bind (Keeps.discard (keeps_discover hask.notes p.marked low)) (.refl _)
      fun _ s₁ h₁ => ?_
    have hagree₁ := fun x => (hagree x).above h₁
    refine .bind (hask.keeps_requestComponents s₁)
      (hask.agree_requestComponentsWith hagree₁ p.marked) fun _ s₂ h₂ => ?_
    have hagree₂ := fun x => (hagree₁ x).above h₂
    refine .bind (hask.keeps_requestProperties s₂)
      (hask.agree_requestPropertiesWith hagree₂ p.marked) fun _ s₃ h₃ => ?_
    have hagree₃ := fun x => (hagree₂ x).above h₃
    exact .bind (hask.keeps_definitions s₃) (hask.agree_definitionsWith hagree₃ p.marked)
      fun _ _ _ => .refl _

end Operations

/-- As deep as resolvers could nest if each of them took a name that is not taken. -/
def nameBound (p : Pass) : Nat := p.module.fullNameCount + p.module.shortNameCount + 1

/-- Performs an operation under watch. -/
def performWatched (p : Pass) (alarm : Request → Run Handle) : Operation → Run Reply :=
  p.performWith (p.watched alarm p.nameBound) (p.marked.watched alarm p.nameBound)

/-- **Operations set off no alarm**. -/
theorem agree_performWatched (p : Pass) (alarm : Request → Run Handle) (op : Operation)
    (low : State) : Agree p.counting low (p.perform op) (p.performWatched alarm op) := by
  -- There are no more places than names, and at most two names for each declaration.
  have hroom : p.room low.1 < p.nameBound := Nat.lt_succ_of_le (Nat.sub_le _ _)
  have hbound : p.nameBound ≤ p.depthBound := Nat.succ_le_succ p.module.nameCounts_le
  have hask := supports_counting p.agrees_refl p.depthBound
  have hagree : ∀ x,
      Agree p.counting low (p.request p.depthBound x) (p.watched alarm p.nameBound x) :=
    fun x => agree_watched p.agrees_refl alarm (Nat.lt_of_lt_of_le hroom hbound) hroom x
  rw [perform_eq]
  cases op with
  | discover => exact .refl _
  | flattenFields fullName => exact .map _ (hask.agree_flattenWith hagree p fullName)
  | classify m => exact .map _ (hask.agree_classifyWith hagree p m)
  | schemaForType fullName => exact .map _ (hagree _)
  | registerVariant fullName => exact .map _ (hagree _)
  | describe fullName => exact .map _ (hask.agree_describeWith hagree p fullName)
  | extract =>
    refine .map _ ((supports_counting p.agrees_marked _).agree_extractWith fun x => ?_)
    exact agree_watched p.agrees_marked alarm (Nat.lt_of_lt_of_le hroom hbound) hroom x

/-! ## §4 Sessions -/

/-- The state that some operations leave, whether they fail or not. -/
def after (p : Pass) (ops : List Operation) (s : State) : State :=
  ops.foldl (fun s op => (p.perform op s).2) s

/-- The loops next to the requests: what they compute with a bound is what they would compute
without one. -/
structure LoopsEnd (p : Pass) : Prop where
  /-- Base chains, for flattening. -/
  chains : ∀ fullName, p.module.Chain p.conventions.universalRoot [] fullName
    (p.module.baseChain p.conventions.universalRoot fullName)
  /-- The table of subtypes, for the variants of a list and the members of a family. -/
  subtypes : ∃ found, p.module.Fills [] .empty p.module.order found
    (p.module.subtypeTable p.module.order)
  /-- The bases of a type, for what counts as a definition. -/
  bases : ∀ fullName ancestor, p.module.isAssignableTo fullName ancestor = true ↔
    ∃ n, Module.climb p.module.base? n fullName = some ancestor
  /-- The queue of discovery. -/
  discovery : p.Visits [] p.seeds p.reachable

theorem loopsEnd (p : Pass) : p.LoopsEnd :=
  ⟨fun _ => Module.chain_baseChain .., p.module.fills_subtypeTable _,
    fun _ _ => Module.isAssignableTo_iff, p.visits_reachable⟩

theorem keeps_perform_counting (p : Pass) (op : Operation) (low : State) :
    Keeps p.counting low (p.perform op) fun _ _ => True :=
  ((supports_counting p.agrees_refl _).keeps_perform (supports_counting p.agrees_marked _) op
    low).weaken fun _ _ _ => trivial

theorem counting_after {ops : List Operation} {s : State} (hs : p.counting.Inv s) :
    p.counting.Inv (p.after ops s) := by
  induction ops generalizing s with
  | nil => exact hs
  | cons op ops ih => exact ih (keeps_perform_counting p op s s hs (p.counting.refl s)).1

/-- **Every operation ends**, in every state that operations of the session can leave: whatever the
alarm does, it is not heard of, so requests nest no deeper than there are distinct names and never
find more entries than there are names for them; the loops next to them end as well.  The arenas
grow, and stay within the distinct full names and the distinct short names. -/
theorem session_ends (path : String) (manifest : ModuleManifest) (keys : KeyOrder)
    (conventions : Conventions) (ops : List Operation) (op : Operation) :
    let p := ofManifest path manifest conventions keys
    let s := p.after ops start
    let s' := (p.perform op s).2
    (∀ alarm, p.performWatched alarm op s = p.perform op s)
      ∧ p.LoopsEnd ∧ p.marked.LoopsEnd
      ∧ s.1.schemas.length ≤ s'.1.schemas.length
      ∧ s'.1.schemas.length ≤ p.module.fullNameCount
      ∧ s.1.variants.length ≤ s'.1.variants.length
      ∧ s'.1.variants.length ≤ p.module.shortNameCount := by
  intro p s s'
  have hs : p.counting.Inv s := counting_after p.counting_start
  obtain ⟨hs', hle, -⟩ := keeps_perform_counting p op s s hs (p.counting.refl s)
  have hroomy := isRoomy_of_inv hs'
  have hgrow := sizes_of_le hle
  -- All that is left is the alarm, which no operation hears of.
  refine ⟨fun alarm => ?_, p.loopsEnd, p.marked.loopsEnd, hgrow.1, hroomy.1, hgrow.2, hroomy.2⟩
  exact (agree_performWatched p alarm op s s hs (p.counting.refl s)).symm

end Pass

end SchemaGraph
