import SchemaGraph.Extraction
import SchemaGraph.Proofs.Extraction.Runs

/-!
# How Fields Are Made

A pass makes fields of what its requests are answered.  Which kind a field has, what it is called
and which requests it needs can be read off the module alone; the handles are those of the answers.
This module follows a pass from the member to the cache and keeps track of the answers, whatever
they are known to mean.

- `Pass.Made`: the field of a member, with handles that answer its requests
- `Pass.Spelled`: the fields of a type, one for each member that is not shadowed
- `Pass.Supports.keeps_classifyWith`, `Pass.Supports.keeps_flattenWith`,
  `Pass.Supports.keeps_extract`: the way of a pass
-/

namespace SchemaGraph

/-- The regime allows that more notes are taken. -/
def Regime.AllowsNotes (g : Regime (Registry × List String)) : Prop :=
  ∀ r notes notes', notes ⊆ notes' → g.Inv (r, notes) →
    g.Inv (r, notes') ∧ g.Le (r, notes) (r, notes')

/-- An entry of the right list belongs to one of the left list. -/
theorem exists_mem_of_forall₂ {α β : Type} {R : α → β → Prop} {xs : List α} {ys : List β}
    (h : List.Forall₂ R xs ys) {y : β} (hy : y ∈ ys) : ∃ x ∈ xs, R x y := by
  induction h with
  | nil => cases hy
  | cons hr _ ih =>
    rcases List.mem_cons.1 hy with rfl | hy
    · exact ⟨_, List.mem_cons_self, hr⟩
    · obtain ⟨x, hx, hxy⟩ := ih hy
      exact ⟨x, List.mem_cons_of_mem _ hx, hxy⟩

namespace Pass

/-! ## §1 Fields -/

/-- The field with the localization marks of the member. -/
def mark (p : Pass) (m : Member) (f : Field) : Field :=
  f.withLocalization (m.hasAttribute p.conventions.localizationHandleMarker)
    (m.hasAttribute p.conventions.mustLocalizeMarker)

/-- The handle of an item type: none for a scalar, else the answer to the request for its
schema. -/
def IsItemSchema (p : Pass) (A : Request → Handle → Prop) (itemType : String) (h : Handle) : Prop :=
  if p.conventions.isScalar itemType then h = noHandle else A (.schema itemType) h

/-- The type gets a schema, or could get one if it were declared and not banned. -/
def isNestable (p : Pass) (typeName : String) : Bool :=
  match p.module.lookup? typeName with
  | some t => !t.isEnum
  | none => p.isBanned typeName

/-- **The field of a member**, where `A` tells which handles may answer a request. -/
inductive Made (p : Pass) (A : Request → Handle → Prop) (m : Member) : Field → Prop where
  | deepList (item : TypeRef) (htype : m.type = .list (.list item)) :
    Made p A m (p.mark m (.list m.name m.type.display noHandle))
  | list (itemType : String) (h : Handle) (htype : m.type = .list (.named itemType))
    (hpoly : p.isPolymorphic itemType = false) (hh : p.IsItemSchema A itemType h) :
    Made p A m (p.mark m (.list m.name m.type.display h))
  | polymorphicList (itemType : String) (h : Handle) (ids : List Handle)
    (htype : m.type = .list (.named itemType)) (hpoly : p.isPolymorphic itemType = true)
    (hh : p.IsItemSchema A itemType h)
    (hids : List.Forall₂ (fun t => A (.variant t)) (p.variantCandidates itemType) ids) :
    Made p A m (p.mark m (.polymorphicList m.name m.type.display h ids))
  | scalar (typeName : String) (htype : m.type = .named typeName)
    (hscalar : p.conventions.isScalar typeName = true) :
    Made p A m (p.mark m (.scalar m.name typeName))
  | enumerated (typeName : String) (t : TypeInfo) (htype : m.type = .named typeName)
    (hscalar : p.conventions.isScalar typeName = false)
    (hlookup : p.module.lookup? typeName = some t) (henum : t.isEnum = true) :
    Made p A m (p.mark m (.enumerated m.name t.name t.enumValues))
  | nested (typeName : String) (h : Handle) (htype : m.type = .named typeName)
    (hscalar : p.conventions.isScalar typeName = false)
    (hnestable : p.isNestable typeName = true) (hh : A (.schema typeName) h) :
    Made p A m (p.mark m (.nested m.name typeName h))
  | external (typeName : String) (htype : m.type = .named typeName)
    (hscalar : p.conventions.isScalar typeName = false)
    (hlookup : p.module.lookup? typeName = none) (hbanned : p.isBanned typeName = false) :
    Made p A m (p.mark m (.external m.name typeName))

section Made

variable {p : Pass} {A A' : Request → Handle → Prop} {m : Member} {f : Field}

theorem IsItemSchema.mono {itemType : String} {h : Handle} (hA : ∀ q h, A q h → A' q h)
    (hh : p.IsItemSchema A itemType h) : p.IsItemSchema A' itemType h := by
  unfold IsItemSchema at hh ⊢
  split
  next hscalar => rwa [if_pos hscalar] at hh
  next hscalar =>
    rw [if_neg hscalar] at hh
    exact hA _ _ hh

/-- Handles go on answering a request as time goes by. -/
theorem Made.mono (hA : ∀ q h, A q h → A' q h) (hf : p.Made A m f) : p.Made A' m f := by
  -- Only the cases with a request have something to carry over.
  cases hf with
  | deepList item htype => exact .deepList item htype
  | list itemType h htype hpoly hh => exact .list itemType h htype hpoly (hh.mono hA)
  | polymorphicList itemType h ids htype hpoly hh hids =>
    exact .polymorphicList itemType h ids htype hpoly (hh.mono hA) (hids.imp fun t h => hA _ h)
  | scalar typeName htype hscalar => exact .scalar typeName htype hscalar
  | enumerated typeName t htype hscalar hlookup henum =>
    exact .enumerated typeName t htype hscalar hlookup henum
  | nested typeName h htype hscalar hnestable hh =>
    exact .nested typeName h htype hscalar hnestable (hA _ _ hh)
  | external typeName htype hscalar hlookup hbanned =>
    exact .external typeName htype hscalar hlookup hbanned

end Made

/-! ## §2 Types -/

/-- The members of the levels of a base chain, without those of a name that is `taken` by then. -/
def membersOf (p : Pass) : (taken : List String) → (levels : List TypeInfo) → Option (List Member)
  | _, [] => some []
  | taken, t :: levels => do
    let record ← (p.module.introspect p.conventions t.fullName).toOption
    let members := newcomers (·.name) taken record.members
    return members ++ (← p.membersOf (members.map (·.name) ++ taken) levels)

/-- The members that a type has, its own before those it inherits; none if a type of its base chain
cannot be introspected. -/
def allMembers (p : Pass) (fullName : String) : Option (List Member) :=
  p.membersOf [] (p.module.baseChain p.conventions.universalRoot fullName)

/-- The fields are those of all members of the type, in order. -/
def Spelled (p : Pass) (A : Request → Handle → Prop) (fullName : String) (fields : List Field) :
    Prop :=
  ∃ members, p.allMembers fullName = some members ∧ List.Forall₂ (p.Made A) members fields

theorem Spelled.mono {p : Pass} {A A' : Request → Handle → Prop} {fullName : String}
    {fields : List Field} (hA : ∀ q h, A q h → A' q h) (hfields : p.Spelled A fullName fields) :
    p.Spelled A' fullName fields := by
  obtain ⟨members, hmembers, hmade⟩ := hfields
  exact ⟨members, hmembers, hmade.imp fun m f => Made.mono hA⟩

/-! ## §3 Passes that agree -/

/-- The passes read the same module by the same conventions; they may differ in what they count as
members of component families. -/
def Agrees (p q : Pass) : Prop := q.module = p.module ∧ q.conventions = p.conventions

section Agrees

variable {p q : Pass} {A : Request → Handle → Prop}

theorem agrees_refl (p : Pass) : p.Agrees p := ⟨rfl, rfl⟩

theorem agrees_marked (p : Pass) : p.Agrees p.marked := ⟨rfl, rfl⟩

theorem Made.of_agrees (h : p.Agrees q) {m : Member} {f : Field} (hf : q.Made A m f) :
    p.Made A m f := by
  -- With the same module and conventions, the two passes put the same questions.
  obtain ⟨module, conventions, members⟩ := p
  obtain ⟨module', conventions', members'⟩ := q
  obtain ⟨rfl, rfl⟩ : module' = module ∧ conventions' = conventions := h
  cases hf with
  | deepList item htype => exact .deepList item htype
  | list itemType h htype hpoly hh => exact .list itemType h htype hpoly hh
  | polymorphicList itemType h ids htype hpoly hh hids =>
    exact .polymorphicList itemType h ids htype hpoly hh hids
  | scalar typeName htype hscalar => exact .scalar typeName htype hscalar
  | enumerated typeName t htype hscalar hlookup henum =>
    exact .enumerated typeName t htype hscalar hlookup henum
  | nested typeName h htype hscalar hnestable hh =>
    exact .nested typeName h htype hscalar hnestable hh
  | external typeName htype hscalar hlookup hbanned =>
    exact .external typeName htype hscalar hlookup hbanned

theorem membersOf_of_agrees (h : p.Agrees q) (taken : List String) (levels : List TypeInfo) :
    q.membersOf taken levels = p.membersOf taken levels := by
  induction levels generalizing taken with
  | nil => rfl
  | cons t levels ih => simp only [membersOf, ih, h.1, h.2]

theorem Spelled.of_agrees (h : p.Agrees q) {fullName : String} {fields : List Field}
    (hfields : q.Spelled A fullName fields) : p.Spelled A fullName fields := by
  obtain ⟨members, hmembers, hmade⟩ := hfields
  refine ⟨members, ?_, hmade.imp fun m f => Made.of_agrees h⟩
  rw [← hmembers, allMembers, allMembers, membersOf_of_agrees h, h.1, h.2]

theorem needsSchema_of_agrees (h : p.Agrees q) : q.needsSchema = p.needsSchema := by
  funext fullName
  simp only [needsSchema, isBanned, h.1, h.2]

end Agrees

/-! ## §4 The way of a pass -/

/-- A way to make requests keeps the regime and answers within `A`, where answers stay answers. -/
structure Supports (g : Regime State) (A : Request → Handle → State → Prop)
    (ask : Request → Run Handle) : Prop where
  notes : g.AllowsNotes
  mono : ∀ q h s s', g.Le s s' → A q h s → A q h s'
  answers : ∀ q low, Keeps g low (ask q) (A q)

section Keeps

variable {p : Pass} {g : Regime State} {A : Request → Handle → State → Prop}
  {ask : Request → Run Handle}

/-- Introspection notes a name and reads the module; the registry is not involved. -/
theorem introspect_run (p : Pass) (fullName : String) (s : State) :
    p.introspect fullName s = (p.module.introspect p.conventions fullName,
      s.1, if fullName ∈ s.2 then s.2 else s.2 ++ [fullName]) := by
  unfold introspect
  cases p.module.introspect p.conventions fullName <;> rfl

theorem subset_noted (names : List String) (fullName : String) :
    names ⊆ if fullName ∈ names then names else names ++ [fullName] := by
  split
  · exact List.Subset.refl _
  · exact List.subset_append_left _ _

theorem keeps_introspect (hnotes : g.AllowsNotes) (p : Pass) (fullName : String) (low : State) :
    Keeps g low (p.introspect fullName) fun record _ =>
      p.module.introspect p.conventions fullName = .ok record := by
  intro s hinv _
  rw [introspect_run]
  obtain ⟨hinv', hle⟩ := hnotes s.1 s.2 _ (subset_noted s.2 fullName) hinv
  exact ⟨hinv', hle, fun record hrecord => hrecord⟩

/-- The item type of a list is asked for, unless it is a scalar; the field is made of the
answer. -/
theorem Supports.keeps_itemSchema (hask : Supports g A ask) (itemType : String) {low : State}
    {make : Handle → Run Field} {Q : Field → State → Prop}
    (hmake : ∀ h s, g.Le low s → p.IsItemSchema (A · · s) itemType h → Keeps g s (make h) Q) :
    Keeps g low
      (if p.conventions.isScalar itemType then pure noHandle >>= make
        else ask (.schema itemType) >>= make) Q := by
  split
  -- A scalar is not asked for, so its handle is the missing one.
  next hscalar =>
    have hnone : Keeps g low (pure noHandle : Run Handle)
        fun h s => p.IsItemSchema (A · · s) itemType h :=
      Keeps.pure fun _ _ _ => by rw [IsItemSchema, if_pos hscalar]
    exact Keeps.bind hnone hmake
  next hscalar =>
    refine Keeps.bind (hask.answers (.schema itemType) low) fun h s hle hh => hmake h s hle ?_
    rw [IsItemSchema, if_neg hscalar]
    exact hh

/-- What holds of an unmarked field: with its marks it is the field of the member. -/
def MadeUnmarked (p : Pass) (A : Request → Handle → State → Prop) (m : Member) (f : Field)
    (s : State) : Prop :=
  p.Made (A · · s) m (p.mark m f)

theorem Supports.keeps_classifyNamed (hask : Supports g A ask) {m : Member} {typeName : String}
    (htype : m.type = .named typeName) (low : State) :
    Keeps g low (p.classifyNamed ask m.name typeName) (p.MadeUnmarked A m) := by
  unfold classifyNamed
  split
  next hscalar => exact Keeps.pure fun _ _ _ => .scalar typeName htype hscalar
  next hscalar =>
    have hscalar : p.conventions.isScalar typeName = false := Bool.eq_false_iff.2 hscalar
    -- Two cases come to the same request: a declared type that is no enumeration, and a banned one.
    have hnested : p.isNestable typeName = true → Keeps g low
        (do return .nested m.name typeName (← ask (.schema typeName))) (p.MadeUnmarked A m) := by
      intro hnestable
      refine Keeps.bind (hask.answers (.schema typeName) low) fun h s _ hh => ?_
      refine Keeps.pure fun s' _ hle => .nested typeName h htype hscalar hnestable ?_
      exact hask.mono _ _ _ _ hle hh
    cases hlookup : p.module.lookup? typeName with
    | some t =>
      simp only
      split
      next henum => exact Keeps.pure fun _ _ _ => .enumerated typeName t htype hscalar hlookup henum
      next henum => exact hnested (by simp [isNestable, hlookup, henum])
    | none =>
      simp only
      split
      next hbanned => exact hnested (by simp [isNestable, hlookup, hbanned])
      next hbanned =>
        exact Keeps.pure fun _ _ _ =>
          .external typeName htype hscalar hlookup (Bool.eq_false_iff.2 hbanned)

theorem Supports.keeps_classifyList (hask : Supports g A ask) {m : Member} {item : TypeRef}
    (htype : m.type = .list item) (low : State) :
    Keeps g low (p.classifyList ask m.name item) (p.MadeUnmarked A m) := by
  cases item with
  | list item =>
    unfold classifyList
    rw [← htype]
    exact Keeps.pure fun _ _ _ => .deepList item htype
  | named itemType =>
    unfold classifyList
    -- Whether the list is polymorphic is a question to the module alone.
    rw [← htype]
    simp only
    split
    next hpoly =>
      -- The variants come first; they go on answering while the schema is asked for.
      refine Keeps.bind (Keeps.mapM_forall₂ (fun t h s s' hle => hask.mono (.variant t) h s s' hle)
        fun t _ s _ => hask.answers (.variant t) s) fun ids s _ hids => ?_
      refine hask.keeps_itemSchema itemType fun h s' hle hh => Keeps.pure fun s'' _ hle' => ?_
      refine .polymorphicList itemType h ids htype hpoly ?_ ?_
      · exact hh.mono fun q h => hask.mono q h s' s'' hle'
      · exact hids.imp fun t h => hask.mono _ h s s'' (g.trans hle hle')
    next hpoly =>
      refine hask.keeps_itemSchema itemType fun h s _ hh => Keeps.pure fun s' _ hle => ?_
      refine .list itemType h htype (Bool.eq_false_iff.2 hpoly) ?_
      exact hh.mono fun q h => hask.mono q h s s' hle

/-- **Classification**: the field of a member holds nothing but answers. -/
theorem Supports.keeps_classifyWith (hask : Supports g A ask) (p : Pass) (m : Member)
    (low : State) : Keeps g low (p.classifyWith ask m) fun f s => p.Made (A · · s) m f := by
  have hmark : ∀ f s, p.MadeUnmarked A m f s → Keeps g s (pure (p.mark m f) : Run Field)
      fun f s => p.Made (A · · s) m f :=
    fun f s hf => Keeps.pure fun s' _ hle => Made.mono (fun q h => hask.mono q h s s' hle) hf
  unfold classifyWith
  cases htype : m.type with
  | named typeName =>
    exact Keeps.bind (hask.keeps_classifyNamed htype low) fun f s _ hf => hmark f s hf
  | list item =>
    exact Keeps.bind (hask.keeps_classifyList htype low) fun f s _ hf => hmark f s hf

/-- Level by level: the fields of a level stay good while the levels above are read. -/
theorem Supports.keeps_flattenLevels (hask : Supports g A ask) (p : Pass) (taken : List String)
    (levels : List TypeInfo) (low : State) :
    Keeps g low (p.flattenLevels ask taken levels) fun fields s => ∃ members,
      p.membersOf taken levels = some members ∧ List.Forall₂ (p.Made (A · · s)) members fields := by
  have hmono : ∀ m f s s', g.Le s s' → p.Made (A · · s) m f → p.Made (A · · s') m f :=
    fun m f s s' hle => Made.mono fun q h => hask.mono q h s s' hle
  induction levels generalizing taken low with
  | nil => exact Keeps.pure fun _ _ _ => ⟨[], rfl, .nil⟩
  | cons t levels ih =>
    unfold flattenLevels
    refine Keeps.bind (keeps_introspect hask.notes p t.fullName low) fun record s₁ _ hrecord => ?_
    -- First the members of the level itself, then the levels above.
    refine Keeps.bind (Keeps.mapM_forall₂ hmono fun m _ s _ => hask.keeps_classifyWith p m s)
      fun fields s₂ _ hfields => ?_
    refine Keeps.bind (ih _ s₂) fun rest s₃ hle hrest => Keeps.pure fun s₄ _ hle' => ?_
    obtain ⟨members, hmembers, hmade⟩ := hrest
    refine ⟨newcomers (·.name) taken record.members ++ members, ?_, ?_⟩
    · simp [membersOf, hrecord, Except.toOption, hmembers]
    -- Both lists of fields have to last until the end of the walk.
    · exact List.rel_append (hfields.imp fun m f => hmono m f s₂ s₄ (g.trans hle hle'))
        (hmade.imp fun m f => hmono m f s₃ s₄ hle')

/-- **Flattening**: the fields of a type are those of its members and of those it inherits. -/
theorem Supports.keeps_flattenWith (hask : Supports g A ask) (p : Pass) (fullName : String)
    (low : State) :
    Keeps g low (p.flattenWith ask fullName) fun fields s => p.Spelled (A · · s) fullName fields :=
  hask.keeps_flattenLevels p _ _ low

end Keeps

/-! ## §5 The cache -/

section Cache

variable {p : Pass} {g : Regime State} {A : Request → Handle → State → Prop}
  {ask : Request → Run Handle}

/-- An attempt to introspect a type always answers. -/
theorem attempt_run (p : Pass) (fullName : String) (s : State) :
    (try discard (p.introspect fullName) catch _ => pure () : Run Unit) s =
      (.ok (), s.1, if fullName ∈ s.2 then s.2 else s.2 ++ [fullName]) := by
  have hdiscard : discard (p.introspect fullName) s =
      ((p.introspect fullName s).1.map fun _ => PUnit.unit, (p.introspect fullName s).2) :=
    run_map (p.introspect fullName) s fun _ => PUnit.unit
  refine (run_tryCatch (discard (p.introspect fullName)) s fun _ => pure ()).trans ?_
  rw [hdiscard, introspect_run]
  cases p.module.introspect p.conventions fullName <;> rfl

/-- **Discovery** always answers.  It notes all types that it reaches and leaves the registry
alone. -/
theorem discover_run (p : Pass) (s : State) :
    ∃ notes, p.discover s = (.ok p.reachable, s.1, notes) ∧ s.2 ⊆ notes ∧ p.reachable ⊆ notes := by
  have hloop : ∀ (names : List String) (s : State), ∃ notes,
      (forIn names PUnit.unit fun fullName _ => do
        try discard (p.introspect fullName) catch _ => pure ()
        return ForInStep.yield PUnit.unit : Run PUnit) s = (.ok PUnit.unit, s.1, notes)
        ∧ s.2 ⊆ notes ∧ names ⊆ notes := by
    intro names
    induction names with
    | nil => exact fun s => ⟨s.2, rfl, List.Subset.refl _, List.nil_subset _⟩
    | cons name names ih =>
      intro s
      -- The name is noted, whether it can be introspected or not.
      let noted := if name ∈ s.2 then s.2 else s.2 ++ [name]
      have hnoted : s.2 ⊆ noted ∧ name ∈ noted := by
        by_cases hname : name ∈ s.2
        · simp [noted, hname]
        · simp [noted, hname]
      obtain ⟨notes, hrest, hgrow, hnames⟩ := ih (s.1, noted)
      refine ⟨notes, ?_, List.Subset.trans hnoted.1 hgrow,
        List.cons_subset.2 ⟨hgrow hnoted.2, hnames⟩⟩
      -- Each round of the loop is an attempt, which always answers.
      rw [List.forIn_cons, run_bind, run_bind, attempt_run]
      exact hrest
  obtain ⟨notes, hrun, hgrow, hnames⟩ := hloop p.reachable s
  refine ⟨notes, ?_, hgrow, hnames⟩
  unfold discover
  rw [run_bind, hrun]
  rfl

theorem keeps_discover (hnotes : g.AllowsNotes) (p : Pass) (low : State) :
    Keeps g low p.discover fun _ _ => True := by
  intro s hinv _
  obtain ⟨notes, hrun, hgrow, -⟩ := p.discover_run s
  rw [hrun]
  obtain ⟨hinv', hle⟩ := hnotes s.1 s.2 notes hgrow hinv
  exact ⟨hinv', hle, fun _ _ => trivial⟩

/-- Requests a variant for every concrete member of a component family. -/
def requestComponentsWith (p : Pass) (ask : Request → Run Handle) : Run Unit := do
  for fullName in p.familyMembers.filter p.isVariantCandidate do
    discard (ask (.variant fullName))

/-- Requests a variant for every property type. -/
def requestPropertiesWith (p : Pass) (ask : Request → Run Handle) : Run Unit := do
  for t in p.module.types do
    if p.isPropertiesType t && !t.isInterface && !p.isBanned t.fullName then
      discard (ask (.variant t.fullName))

/-- The definition of a type, with a way to make requests. -/
def definitionWith? (p : Pass) (ask : Request → Run Handle) (t : TypeInfo) :
    Run (Option Definition) := do
  if (p.noted? (← get) t.fullName).isNone then return none
  return some (p.definitionOf t (← p.flattenWith ask t.fullName))

/-- The definitions of the module, with a way to make requests. -/
def definitionsWith (p : Pass) (ask : Request → Run Handle) : Run (List Definition) := do
  let answers ← p.definitionCandidates.mapM (p.definitionWith? ask)
  return (answers.filterMap id).mergeSort (fun a b => a.tagName ≤ b.tagName)

/-- The type can be introspected. -/
def isReadable (p : Pass) (t : TypeInfo) : Bool :=
  (p.module.introspect p.conventions t.fullName).toBool

/-- The types that are due a definition. -/
def definitionTypes (p : Pass) : List TypeInfo := p.definitionCandidates.filter p.isReadable

/-- What was noted can be read. -/
theorem isReadable_of_noted? {p : Pass} {s : State} {t : TypeInfo}
    (h : (p.noted? s t.fullName).isNone = false) : p.isReadable t = true := by
  unfold noted? at h
  unfold isReadable
  split at h
  · cases hrecord : p.module.introspect p.conventions t.fullName with
    | error e =>
      rw [hrecord] at h
      cases h
    | ok record => rfl
  · cases h

/-- Extracts the module, with a way to make requests once component members are marked. -/
def extractWith (p : Pass) (ask : Request → Run Handle) : Run Cache := do
  if (p.module.lookup? p.conventions.definitionBase).isNone then return .empty
  let p := p.marked
  discard p.discover
  p.requestComponentsWith ask
  p.requestPropertiesWith ask
  let definitions ← p.definitionsWith ask
  let (registry, _) ← get
  return {
    definitions
    catalog := p.catalog
    schemas := registry.schemas
    variants := registry.variants
    castTable := p.castTable }

/-- The concrete members of the component families. -/
def componentTypes (p : Pass) : List String := p.familyMembers.filter p.isVariantCandidate

/-- The properties types. -/
def propertiesTypes (p : Pass) : List TypeInfo :=
  p.module.types.filter fun t =>
    p.isPropertiesType t && !t.isInterface && !p.isBanned t.fullName

/-- One round of a loop that requests variants: it never ends the loop. -/
theorem Supports.answers_discard (hask : Supports g A ask) (x : Request) (low : State) :
    Keeps g low (do discard (ask x); return ForInStep.yield PUnit.unit) fun step s =>
      (∃ u, step = .yield u) ∧ ∃ h, A x h s := by
  refine Keeps.bind (Keeps.map (R := fun _ s => ∃ h, A x h s) _
    ((hask.answers x low).weaken fun h s hh => ⟨h, hh⟩)) fun _ s _ hx => ?_
  obtain ⟨h, hh⟩ := hx
  exact Keeps.pure fun s' _ hle => ⟨⟨_, rfl⟩, h, hask.mono _ _ _ _ hle hh⟩

theorem Supports.keeps_discard (hask : Supports g A ask) (x : Request) (low : State) :
    Keeps g low (do discard (ask x); return ForInStep.yield PUnit.unit) fun _ _ => True :=
  (hask.answers_discard x low).weaken fun _ _ _ => trivial

/-- Every component type gets its answer. -/
theorem Supports.keeps_requestComponentsWith (hask : Supports g A ask) (p : Pass) (low : State) :
    Keeps g low (p.requestComponentsWith ask) fun _ s =>
      ∀ fullName ∈ p.componentTypes, ∃ h, A (.variant fullName) h s := by
  unfold requestComponentsWith
  have hmono : ∀ fullName s s', g.Le s s' →
      (∃ h, A (.variant fullName) h s) → ∃ h, A (.variant fullName) h s' :=
    fun fullName s s' hle hx => hx.imp fun h hh => hask.mono _ _ _ _ hle hh
  refine Keeps.bind (Keeps.forIn_each hmono fun fullName _ _ s _ =>
    hask.answers_discard (.variant fullName) s) fun _ s _ hall => Keeps.pure fun s' _ hle => ?_
  exact fun fullName hmem => hmono fullName s s' hle (hall fullName hmem)

/-- One round of the loop over the own types: a variant is requested of a properties type only. -/
theorem Supports.answers_propertiesRound (hask : Supports g A ask) (p : Pass) (t : TypeInfo)
    (low : State) :
    Keeps g low (do
      if p.isPropertiesType t && !t.isInterface && !p.isBanned t.fullName then
        discard (ask (.variant t.fullName))
      return ForInStep.yield PUnit.unit : Run (ForInStep PUnit)) fun step s =>
        (∃ u, step = .yield u) ∧ (t ∈ p.propertiesTypes → ∃ h, A (.variant t.fullName) h s) := by
  split
  · exact (hask.answers_discard (.variant t.fullName) low).weaken
      fun step s hstep => ⟨hstep.1, fun _ => hstep.2⟩
  -- Another type is passed over, and there is nothing to be shown for it.
  next hother => exact Keeps.pure fun _ _ _ =>
      ⟨⟨_, rfl⟩, fun ht => absurd (List.mem_filter.1 ht).2 hother⟩

theorem Supports.keeps_propertiesRound (hask : Supports g A ask) (p : Pass) (t : TypeInfo)
    (low : State) :
    Keeps g low (do
      if p.isPropertiesType t && !t.isInterface && !p.isBanned t.fullName then
        discard (ask (.variant t.fullName))
      return ForInStep.yield PUnit.unit : Run (ForInStep PUnit)) fun _ _ => True :=
  (hask.answers_propertiesRound p t low).weaken fun _ _ _ => trivial

/-- Every properties type gets its answer, too. -/
theorem Supports.keeps_requestPropertiesWith (hask : Supports g A ask) (p : Pass) (low : State) :
    Keeps g low (p.requestPropertiesWith ask) fun _ s =>
      ∀ t ∈ p.propertiesTypes, ∃ h, A (.variant t.fullName) h s := by
  unfold requestPropertiesWith
  have hmono : ∀ (t : TypeInfo) s s', g.Le s s' →
      (t ∈ p.propertiesTypes → ∃ h, A (.variant t.fullName) h s) →
      t ∈ p.propertiesTypes → ∃ h, A (.variant t.fullName) h s' :=
    fun t s s' hle hx ht => (hx ht).imp fun h hh => hask.mono _ _ _ _ hle hh
  exact Keeps.bind (Keeps.forIn_each hmono fun t _ _ s _ => hask.answers_propertiesRound p t s)
    fun _ s _ hall => Keeps.pure fun s' _ hle t ht =>
      hmono t s s' hle (hall t (List.mem_filter.1 ht).1) ht

theorem Supports.keeps_requestComponents (hask : Supports g A (p.request p.depthBound))
    (low : State) : Keeps g low p.requestComponents fun _ s =>
      ∀ fullName ∈ p.componentTypes, ∃ h, A (.variant fullName) h s :=
  hask.keeps_requestComponentsWith p low

theorem Supports.keeps_requestProperties (hask : Supports g A (p.request p.depthBound))
    (low : State) : Keeps g low p.requestProperties fun _ s =>
      ∀ t ∈ p.propertiesTypes, ∃ h, A (.variant t.fullName) h s :=
  hask.keeps_requestPropertiesWith p low

/-- The definition is that of the type, with the fields of the type. -/
def Drafted (p : Pass) (A : Request → Handle → Prop) (t : TypeInfo) (d : Definition) : Prop :=
  ∃ fields, d = p.definitionOf t fields ∧ p.Spelled A t.fullName fields

theorem Drafted.mono {A A' : Request → Handle → Prop} {t : TypeInfo} {d : Definition}
    (hA : ∀ q h, A q h → A' q h) (hd : p.Drafted A t d) : p.Drafted A' t d := by
  obtain ⟨fields, hd, hfields⟩ := hd
  exact ⟨fields, hd, hfields.mono hA⟩

theorem Drafted.of_agrees {q : Pass} (h : p.Agrees q) {A : Request → Handle → Prop} {t : TypeInfo}
    {d : Definition} (hd : q.Drafted A t d) : p.Drafted A t d := by
  obtain ⟨fields, rfl, hfields⟩ := hd
  exact ⟨fields, by simp only [definitionOf, h.2], hfields.of_agrees h⟩

/-- The definition of a definition type, with the fields of the type. -/
def Defines (p : Pass) (A : Request → Handle → Prop) (d : Definition) : Prop :=
  ∃ t ∈ p.definitionTypes, ∃ fields, d = p.definitionOf t fields ∧ p.Spelled A t.fullName fields

theorem Defines.mono {A A' : Request → Handle → Prop} {d : Definition} (hA : ∀ q h, A q h → A' q h)
    (hd : p.Defines A d) : p.Defines A' d := by
  obtain ⟨t, ht, fields, hd, hfields⟩ := hd
  exact ⟨t, ht, fields, hd, hfields.mono hA⟩

theorem definitionTypes_of_agrees {q : Pass} (h : p.Agrees q) :
    q.definitionTypes = p.definitionTypes := by
  have hdefinable : q.isDefinable = p.isDefinable := by
    funext t
    simp only [isDefinable, isBanned, h.1, h.2]
  have hreadable : q.isReadable = p.isReadable := by
    funext t
    simp only [isReadable, h.1, h.2]
  simp only [definitionTypes, definitionCandidates, hdefinable, hreadable, h.1, h.2]

theorem Defines.of_agrees {q : Pass} (h : p.Agrees q) {A : Request → Handle → Prop} {d : Definition}
    (hd : q.Defines A d) : p.Defines A d := by
  obtain ⟨t, ht, hdrafted⟩ := hd
  exact ⟨t, definitionTypes_of_agrees h ▸ ht, Drafted.of_agrees h hdrafted⟩

/-- What a candidate is answered: its definition, or none for a reason. -/
def Drafts (p : Pass) (A : Request → Handle → Prop) (Omitted : TypeInfo → Prop) (t : TypeInfo) :
    Option Definition → Prop
  | none => Omitted t
  | some d => p.isReadable t = true ∧ p.Drafted A t d

theorem Drafts.mono {A A' : Request → Handle → Prop} {Omitted : TypeInfo → Prop} {t : TypeInfo}
    {answer : Option Definition} (hA : ∀ q h, A q h → A' q h) (h : p.Drafts A Omitted t answer) :
    p.Drafts A' Omitted t answer := by
  cases answer with
  | none => exact h
  | some d => exact ⟨h.1, h.2.mono hA⟩

/-- A definition is made of what flattening the type answers. -/
theorem Supports.keeps_definitionWith? (hask : Supports g A ask) (p : Pass) (t : TypeInfo)
    (low : State) (Omitted : TypeInfo → Prop)
    (hnone : ∀ s, g.Le low s → (p.noted? s t.fullName).isNone → Omitted t) :
    Keeps g low (p.definitionWith? ask t) fun answer s => p.Drafts (A · · s) Omitted t answer := by
  unfold definitionWith?
  refine Keeps.bind (Keeps.get low) fun noted s _ hnoted => ?_
  -- The check is made in a state above `low`, so what is missing there has a reason.
  split
  next hmissing => exact Keeps.pure fun _ _ _ => hnone noted hnoted.2 hmissing
  next hthere =>
    have hreadable := isReadable_of_noted? (Bool.eq_false_iff.2 hthere)
    refine Keeps.bind (hask.keeps_flattenWith p t.fullName s) fun fields s₁ _ hfields => ?_
    exact Keeps.pure fun s₂ _ hle =>
      ⟨hreadable, fields, rfl, hfields.mono fun q h => hask.mono q h s₁ s₂ hle⟩

theorem Supports.keeps_definition (hask : Supports g A ask) (p : Pass) (t : TypeInfo)
    (low : State) : Keeps g low (p.definitionWith? ask t) fun _ _ => True :=
  (hask.keeps_definitionWith? p t low (fun _ => True) fun _ _ _ => trivial).weaken
    fun _ _ _ => trivial

/-- The candidates are answered one by one.  Their definitions keep their fields while the later
ones are flattened. -/
theorem Supports.keeps_answers (hask : Supports g A ask) (p : Pass) (low : State)
    (Omitted : TypeInfo → Prop) (hnone : ∀ t ∈ p.definitionCandidates, ∀ s, g.Le low s →
      (p.noted? s t.fullName).isNone → Omitted t) :
    Keeps g low (p.definitionsWith ask) fun ds s => ∃ answers,
      List.Forall₂ (p.Drafts (A · · s) Omitted) p.definitionCandidates answers
        ∧ ds = (answers.filterMap id).mergeSort (fun a b => a.tagName ≤ b.tagName) := by
  have hmono : ∀ t answer s s', g.Le s s' → p.Drafts (A · · s) Omitted t answer →
      p.Drafts (A · · s') Omitted t answer :=
    fun t answer s s' hle => Drafts.mono fun q h => hask.mono q h s s' hle
  unfold definitionsWith
  have hanswers : Keeps g low (p.definitionCandidates.mapM (p.definitionWith? ask))
      fun answers s => List.Forall₂ (p.Drafts (A · · s) Omitted) p.definitionCandidates answers :=
    Keeps.mapM_forall₂ hmono fun t ht s hle =>
      hask.keeps_definitionWith? p t s Omitted fun s' hle' => hnone t ht s' (g.trans hle hle')
  refine Keeps.bind hanswers fun answers s _ hdrafts => Keeps.pure fun s' _ hle => ?_
  exact ⟨answers, hdrafts.imp fun t answer => hmono t answer s s' hle, rfl⟩

/-- Every definition among the answers is that of a definition type. -/
theorem defines_of_drafts {A : Request → Handle → Prop} {Omitted : TypeInfo → Prop}
    {answers : List (Option Definition)}
    (h : List.Forall₂ (p.Drafts A Omitted) p.definitionCandidates answers) {d : Definition}
    (hd : d ∈ answers.filterMap id) : p.Defines A d := by
  obtain ⟨answer, hanswer, rfl⟩ := List.mem_filterMap.1 hd
  obtain ⟨t, ht, hreadable, hdrafted⟩ := exists_mem_of_forall₂ h hanswer
  exact ⟨t, List.mem_filter.2 ⟨ht, hreadable⟩, hdrafted⟩

theorem Supports.keeps_definitionsWith (hask : Supports g A ask) (p : Pass) (low : State) :
    Keeps g low (p.definitionsWith ask) fun ds s => ∀ d ∈ ds, p.Defines (A · · s) d := by
  refine (hask.keeps_answers p low (fun _ => True) fun _ _ _ _ _ => trivial).weaken
    fun ds s hds d hd => ?_
  obtain ⟨answers, hdrafts, rfl⟩ := hds
  exact defines_of_drafts hdrafts (List.mem_mergeSort.1 hd)

theorem Supports.keeps_definitions (hask : Supports g A (p.request p.depthBound)) (low : State) :
    Keeps g low p.definitions fun ds s => ∀ d ∈ ds, p.Defines (A · · s) d :=
  hask.keeps_definitionsWith p low

/-- The cache holds the arenas of a state of the regime, and definitions that were made of its
answers. -/
structure Collected (p : Pass) (g : Regime State) (A : Request → Handle → State → Prop) (c : Cache)
    (s : State) : Prop where
  inv : g.Inv s
  schemas : c.schemas = s.1.schemas
  variants : c.variants = s.1.variants
  definitions : ∀ d ∈ c.definitions, p.Defines (A · · s) d

/-- **Extraction**: the steps follow each other on one registry, which becomes the cache. -/
theorem Supports.keeps_extract (hask : Supports g A (p.marked.request p.marked.depthBound))
    (low : State) :
    Keeps g low p.extract fun c _ => c = .empty ∨ ∃ s, p.Collected g A c s := by
  unfold extract
  split
  · -- There is nothing to extract.
    exact Keeps.pure fun _ _ _ => .inl rfl
  · refine Keeps.bind (Keeps.discard (keeps_discover hask.notes p.marked low)) fun _ s₁ _ _ => ?_
    refine Keeps.bind (hask.keeps_requestComponents s₁) fun _ s₂ _ _ => ?_
    refine Keeps.bind (hask.keeps_requestProperties s₂) fun _ s₃ _ _ => ?_
    refine Keeps.bind (hask.keeps_definitions s₃) fun ds s₄ _ hds => ?_
    -- The registry is read after the last request, when the definitions fit it.
    refine Keeps.bind (Keeps.get s₄) fun s₅ _ _ hs₅ => Keeps.pure fun _ _ _ => .inr ⟨s₅, ?_⟩
    exact ⟨hs₅.1, rfl, rfl,
      fun d hd => ((hds d hd).mono fun q h => hask.mono q h s₄ s₅ hs₅.2).of_agrees p.agrees_marked⟩

/-- An extraction that succeeds: its steps succeed one after the other, and the registry that the
last one leaves becomes the cache, beside the cast table of the module. -/
theorem extract_eq_ok {t : TypeInfo} {s : State} {c : Cache}
    (hbase : p.module.lookup? p.conventions.definitionBase = some t)
    (h : (p.extract s).1 = .ok c) :
    ∃ names s₁ s₂ s₃ s₄, p.marked.discover s = (.ok names, s₁)
      ∧ p.marked.requestComponents s₁ = (.ok (), s₂)
      ∧ p.marked.requestProperties s₂ = (.ok (), s₃)
      ∧ p.marked.definitions s₃ = (.ok c.definitions, s₄)
      ∧ c.schemas = s₄.1.schemas ∧ c.variants = s₄.1.variants ∧ c.castTable = p.castTable := by
  have hrun : p.extract s = (.ok c, (p.extract s).2) := Prod.ext h rfl
  unfold extract at hrun
  rw [hbase] at hrun
  obtain ⟨_, s₁, hdiscover, hrun⟩ := bind_eq_ok.1 hrun
  obtain ⟨_, s₂, hcomponents, hrun⟩ := bind_eq_ok.1 hrun
  obtain ⟨_, s₃, hproperties, hrun⟩ := bind_eq_ok.1 hrun
  obtain ⟨ds, s₄, hdefinitions, hrun⟩ := bind_eq_ok.1 hrun
  obtain ⟨s₅, s₆, hget, hrun⟩ := bind_eq_ok.1 hrun
  obtain ⟨names, hdiscover⟩ := discard_eq_ok hdiscover
  cases hget
  cases hrun
  exact ⟨names, s₁, s₂, s₃, _, hdiscover, hcomponents, hproperties, hdefinitions, rfl, rfl, rfl⟩

/-- Describing a declared type is flattening it, with a failure absorbed. -/
theorem describe_of_lookup? {fullName : String} {t : TypeInfo}
    (h : p.module.lookup? fullName = some t) :
    p.describe fullName =
      MonadExcept.tryCatch (some <$> p.flatten fullName) fun _ => pure none := by
  unfold describe
  rw [h]
  funext s
  simp only [bind, ExceptT.bind, ExceptT.mk, tryCatch, tryCatchThe, MonadExceptOf.tryCatch,
    ExceptT.tryCatch, StateT.bind, pure, Functor.map, ExceptT.map]
  -- Whether flattening fails or not, both sides do the same with it.
  rcases p.flatten fullName s with ⟨_ | fields, s'⟩
  · rfl
  · rfl

/-- A description has the fields of the type, if there is one. -/
theorem Supports.keeps_describe (hask : Supports g A (p.request p.depthBound)) (fullName : String)
    (low : State) :
    Keeps g low (p.describe fullName)
      fun answer s => ∀ fields, answer = some fields → p.Spelled (A · · s) fullName fields := by
  cases hlookup : p.module.lookup? fullName with
  | none =>
    unfold describe
    rw [hlookup]
    exact Keeps.pure fun s _ _ fields hfields => by cases hfields
  | some t =>
    rw [describe_of_lookup? hlookup]
    -- An answer has the fields of the type; a failure that is absorbed leaves none.
    have hflat : Keeps g low (p.flatten fullName) fun fields s =>
        ∀ fields', some fields = some fields' → p.Spelled (A · · s) fullName fields' :=
      (hask.keeps_flattenWith p fullName low).weaken
        fun fields s hfields fields' heq => Option.some.inj heq ▸ hfields
    refine Keeps.tryCatch (Keeps.map some hflat) fun _ s _ => ?_
    exact Keeps.pure fun s' _ _ fields hfields => by cases hfields

end Cache

end Pass

end SchemaGraph
