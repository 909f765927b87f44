import SchemaGraph.Proofs.Extraction.Requests

/-!
# Sessions

A session is a pass that is used step by step: operations follow each other on one registry, in
any order, and one that fails leaves what it did until then.  After each of them the registry is
coherent, and what is returned holds nothing but good handles.  So an extracted cache can only
have blank names, and those only if the module declares some.

- `Pass.Supports.keeps_perform`: one operation
- `Pass.coherent_of_mem_session`: every state and every reply of a session
- `Pass.session_handles`: the same for the session of a manifest, and what it means for caches
-/

namespace SchemaGraph

/-! ## §1 Extracted caches -/

/-- A cache whose fields are extracted ones and whose names are declared by the module. -/
structure Cache.ExtractedFrom (m : Module) (c : Cache) : Prop where
  fields : ∀ f ∈ c.heldFields, f.Extracted c.sizes
  variants : ∀ v ∈ c.variants, IsHandleIn c.schemas.length v.schemaId
  tags : ∀ d ∈ c.definitions, m.Names d.tagName
  schemaNames : ∀ s ∈ c.schemas, m.Names s.fullName
  variantNames : ∀ v ∈ c.variants, m.Names v.fullName

namespace Cache.ExtractedFrom

variable {m : Module} {c : Cache}

/-- Validation of an extracted cache can only complain about blank names. -/
theorem emptyName (h : c.ExtractedFrom m) {problem : Problem} (hproblem : problem ∈ c.problems) :
    ∃ location, problem = .emptyName location :=
  emptyName_of_mem_problems (fun f hf => (h.fields f hf).everywhere)
    (fun v hv => (h.variants v hv).lt) hproblem

/-- It does not complain at all if no declared name is blank. -/
theorem problems_eq_nil (h : c.ExtractedFrom m)
    (hnames : ∀ name, m.Names name → Text.isBlankText name = false) : c.problems = [] := by
  rw [problems_eq_nil_iff]
  have hfits : ∀ f ∈ c.heldFields, f.Everywhere (Field.Fits c.sizes) :=
    fun f hf => (h.fields f hf).everywhere
  -- Whatever is checked is either a matter of the fields, which are extracted ones, or of a name.
  exact {
    fields := fun f hf => (Field.everywhere_and.1 (hfits f hf)).1
    variants := fun v hv => (h.variants v hv).lt
    payloads := fun f hf => (Field.everywhere_and.1 (hfits f hf)).2
    tags := fun d hd => hnames _ (h.tags d hd)
    schemaNames := fun s hs => hnames _ (h.schemaNames s hs)
    variantNames := fun v hv => hnames _ (h.variantNames v hv) }

end Cache.ExtractedFrom

namespace Pass

variable {p : Pass} {low : State}

/-! ## §2 The steps of an extraction -/

theorem names_of_definitionTypes {t : TypeInfo} (ht : t ∈ p.definitionTypes) :
    p.module.Names t.fullName ∧ p.module.Names t.name := by
  obtain ⟨name, -, hlookup⟩ := List.mem_filterMap.1 (List.mem_filter.1 (List.mem_filter.1 ht).1).1
  have hname : t.fullName = name := (Module.lookup?_eq_some hlookup).2
  rw [hname]
  exact Module.names_of_lookup? hlookup

/-- A definition that is made of good answers has extracted fields, and its tag is a declared
name. -/
theorem Defines.extracted {d : Definition} {s : State} (hd : p.Defines (p.Answered · · s) d) :
    (∀ f ∈ d.fields, f.Extracted s.1.sizes) ∧ p.module.Names d.tagName := by
  obtain ⟨t, ht, fields, rfl, hfields⟩ := hd
  refine ⟨hfields.extracted, ?_⟩
  show p.module.Names (if p.conventions.keepsNamespace then t.fullName else t.name)
  split
  · exact (names_of_definitionTypes ht).1
  · exact (names_of_definitionTypes ht).2

/-- The arenas of a coherent registry with definitions that fit them make an extracted cache. -/
theorem extractedFrom_of_coherent {r : Registry} (hr : r.Coherent p.module) {c : Cache}
    (hschemas : c.schemas = r.schemas) (hvariants : c.variants = r.variants)
    (hdefinitions : ∀ d ∈ c.definitions,
      (∀ f ∈ d.fields, f.Extracted r.sizes) ∧ p.module.Names d.tagName) :
    c.ExtractedFrom p.module := by
  have hsizes : c.sizes = r.sizes := by
    show (⟨c.schemas.length, c.variants.length⟩ : ArenaSizes) = _
    rw [hschemas, hvariants]
    rfl
  refine ⟨?_, hvariants ▸ hschemas ▸ hr.variantSchemas, fun d hd => (hdefinitions d hd).2,
    hschemas ▸ hr.schemaNames, hvariants ▸ hr.variantNames⟩
  -- A field is held by a definition, by a schema or by a variant.
  intro f hf
  rw [hsizes]
  rcases Cache.mem_heldFields.1 hf with ⟨d, hd, hf⟩ | ⟨s, hs, hf⟩ | ⟨v, hv, hf⟩
  · exact (hdefinitions d hd).1 f hf
  · exact hr.schemaFields s (hschemas ▸ hs) f hf
  · exact hr.variantFields v (hvariants ▸ hv) f hf

/-- The way a pass makes requests, before and after component members are marked. -/
theorem supports_request (p : Pass) : Supports p.keeping p.Answered (p.request p.depthBound) :=
  supports_of_answers (answers_request p p.depthBound)

theorem supports_request_marked (p : Pass) :
    Supports p.keeping p.Answered (p.marked.request p.marked.depthBound) :=
  supports_of_answers (p := p) (answers_request p.marked p.marked.depthBound)

theorem extractedFrom_empty (m : Module) : Cache.empty.ExtractedFrom m :=
  ⟨by simp [Cache.heldFields, Cache.empty], by simp [Cache.empty], by simp [Cache.empty],
    by simp [Cache.empty], by simp [Cache.empty]⟩

theorem Collected.extractedFrom {c : Cache} {s : State}
    (hc : p.Collected p.keeping p.Answered c s) : c.ExtractedFrom p.module :=
  extractedFrom_of_coherent hc.inv hc.schemas hc.variants
    fun d hd => (hc.definitions d hd).extracted

/-! ## §3 Sessions -/

/-- What can be done with a session. -/
inductive Operation where
  | discover
  | flattenFields (fullName : String)
  | classify (m : Member)
  | schemaForType (fullName : String)
  | registerVariant (fullName : String)
  | describe (fullName : String)
  | extract

/-- What an operation returns. -/
inductive Reply where
  | names (names : List String)
  | fields (fields : List Field)
  | field (f : Field)
  | schema (h : Handle)
  | variant (h : Handle)
  | description (fields : Option (List Field))
  | cache (c : Cache)
  deriving DecidableEq

/-- Performs an operation. -/
def perform (p : Pass) : Operation → Run Reply
  | .discover => .names <$> p.discover
  | .flattenFields fullName => .fields <$> p.flatten fullName
  | .classify m => .field <$> p.classify m
  | .schemaForType fullName => .schema <$> p.schemaOf fullName
  | .registerVariant fullName => .variant <$> p.variantOf fullName
  | .describe fullName => .description <$> p.describe fullName
  | .extract => .cache <$> p.extract

/-- Performs operations one after the other, whether they fail or not: the reply of each, with
the state that it leaves. -/
def session (p : Pass) : List Operation → State → List (Except IntrospectionError Reply × State)
  | [], _ => []
  | op :: ops, s => p.perform op s :: p.session ops (p.perform op s).2

/-- What an operation replies, made of the answers to its requests. -/
def Replies (p : Pass) (g : Regime State) (A : Request → Handle → State → Prop) :
    Operation → Reply → State → Prop
  | .discover, .names _, _ => True
  | .flattenFields fullName, .fields fields, s => p.Spelled (A · · s) fullName fields
  | .classify m, .field f, s => p.Made (A · · s) m f
  | .schemaForType fullName, .schema h, s => A (.schema fullName) h s
  | .registerVariant fullName, .variant h, s => A (.variant fullName) h s
  | .describe fullName, .description answer, s =>
    ∀ fields, answer = some fields → p.Spelled (A · · s) fullName fields
  | .extract, .cache c, _ => c = .empty ∨ ∃ s, p.Collected g A c s
  | _, _, _ => False

section Operations

variable {g : Regime State} {A : Request → Handle → State → Prop}

/-- **One operation**: it keeps the regime, also when it fails, and replies what it should. -/
theorem Supports.keeps_perform (hask : Supports g A (p.request p.depthBound))
    (hmarked : Supports g A (p.marked.request p.marked.depthBound)) (op : Operation)
    (low : State) : Keeps g low (p.perform op) (p.Replies g A op) := by
  cases op with
  | discover => exact Keeps.map _ (keeps_discover hask.notes p low)
  | flattenFields fullName => exact Keeps.map _ (hask.keeps_flattenWith p fullName low)
  | classify m => exact Keeps.map _ (hask.keeps_classifyWith p m low)
  | schemaForType fullName => exact Keeps.map _ (hask.answers (.schema fullName) low)
  | registerVariant fullName => exact Keeps.map _ (hask.answers (.variant fullName) low)
  | describe fullName => exact Keeps.map _ (hask.keeps_describe fullName low)
  | extract => exact Keeps.map _ (hmarked.keeps_extract low)

/-- **Sessions**: every operation leaves a state of the regime, and replies what it should. -/
theorem Supports.of_mem_session (hask : Supports g A (p.request p.depthBound))
    (hmarked : Supports g A (p.marked.request p.marked.depthBound)) {s : State} (hs : g.Inv s)
    {ops : List Operation} {step : Except IntrospectionError Reply × State}
    (hstep : step ∈ p.session ops s) :
    g.Inv step.2 ∧ ∀ reply, step.1 = .ok reply → ∃ op ∈ ops, p.Replies g A op reply step.2 := by
  induction ops generalizing s with
  | nil => cases hstep
  | cons op ops ih =>
    obtain ⟨hs', -, hreply⟩ := hask.keeps_perform hmarked op s s hs (g.refl s)
    -- The step is the first one, or one of those that start where it ended.
    rcases List.mem_cons.1 hstep with rfl | hstep
    · exact ⟨hs', fun reply hok => ⟨op, List.mem_cons_self, hreply reply hok⟩⟩
    · obtain ⟨hinv, hreplies⟩ := ih hs' hstep
      refine ⟨hinv, fun reply hok => ?_⟩
      obtain ⟨op', hop, hgood⟩ := hreplies reply hok
      exact ⟨op', List.mem_cons_of_mem _ hop, hgood⟩

end Operations

/-- Everything that a reply hands out is valid in the state it comes with. -/
def GoodReply (p : Pass) : Reply → State → Prop
  | .names _, _ => True
  | .fields fields, s => ∀ f ∈ fields, f.Extracted s.1.sizes
  | .field f, s => f.Extracted s.1.sizes
  | .schema h, s => IsHandleIn s.1.schemas.length h
  | .variant h, s => IsHandleIn s.1.variants.length h
  | .description fields, s => ∀ f ∈ fields.getD [], f.Extracted s.1.sizes
  | .cache c, _ => c.ExtractedFrom p.module

theorem Replies.good {op : Operation} {reply : Reply} {s : State}
    (hreply : p.Replies p.keeping p.Answered op reply s) : p.GoodReply reply s := by
  -- Most replies do not belong to the operation; the others are good for the reasons below.
  cases op <;> cases reply <;> try exact hreply.elim
  case discover.names => trivial
  case flattenFields.fields => exact Spelled.extracted hreply
  case classify.field => exact Made.extracted hreply
  case schemaForType.schema => exact hreply
  case registerVariant.variant fullName h =>
    have hanswer : p.Answered (.variant fullName) h s := hreply
    cases hlookup : p.module.lookup? fullName with
    | none =>
      simp only [Answered, hlookup] at hanswer
      exact .inl hanswer
    | some t =>
      simp only [Answered, hlookup] at hanswer
      exact .inr hanswer
  case describe.description fullName answer =>
    cases answer with
    | none => simp [GoodReply]
    | some fields => exact (hreply fields rfl).extracted
  case extract.cache c =>
    rcases hreply with rfl | ⟨s', hc⟩
    · exact extractedFrom_empty _
    · exact hc.extractedFrom

/-- **Sessions**: every operation leaves a coherent registry and a good reply. -/
theorem coherent_of_mem_session {s : State} (hs : s.1.Coherent p.module) {ops : List Operation}
    {step : Except IntrospectionError Reply × State} (hstep : step ∈ p.session ops s) :
    step.2.1.Coherent p.module ∧ ∀ reply, step.1 = .ok reply → p.GoodReply reply step.2 := by
  obtain ⟨hinv, hreplies⟩ :=
    (supports_request p).of_mem_session (supports_request_marked p) hs hstep
  refine ⟨hinv, fun reply hok => ?_⟩
  obtain ⟨op, -, hreply⟩ := hreplies reply hok
  exact hreply.good

/-! ## §4 The session of a manifest -/

/-- The pass that a session of a manifest starts with. -/
def ofManifest (path : String) (manifest : ModuleManifest) (conventions : Conventions)
    (keys : KeyOrder := .given) : Pass where
  module := .ofManifest path manifest keys
  conventions

/-- The names of a module are those of its normalized declarations. -/
theorem names_ofManifest {path : String} {manifest : ModuleManifest} {keys : KeyOrder}
    {name : String} (h : (Module.ofManifest path manifest keys).Names name) :
    ∃ t ∈ manifest.types ++ manifest.imports,
      name = t.normalized.fullName ∨ name = t.normalized.name := by
  obtain ⟨t, ht, hname⟩ := h
  rw [Module.ofManifest, ← List.map_append] at ht
  obtain ⟨u, hu, rfl⟩ := List.mem_map.1 ht
  exact ⟨u, hu, hname⟩

/-- **No bad handle is stored or handed out**: after every operation of a session, whether it or
an earlier one failed, the registry is coherent and a reply is good.  Validation of an extracted
cache can only complain about blank names, and does not if no declared name is blank. -/
theorem session_handles {path : String} {manifest : ModuleManifest} {keys : KeyOrder}
    {conventions : Conventions}
    {ops : List Operation} {step : Except IntrospectionError Reply × State}
    (hstep : step ∈ (ofManifest path manifest conventions keys).session ops start) :
    step.2.1.Coherent (.ofManifest path manifest keys)
      ∧ (∀ reply, step.1 = .ok reply →
          (ofManifest path manifest conventions keys).GoodReply reply step.2)
      ∧ ∀ c, step.1 = .ok (.cache c) →
          (∀ problem ∈ c.problems, ∃ location, problem = .emptyName location)
            ∧ ((∀ t ∈ manifest.types ++ manifest.imports,
                  Text.isBlankText t.normalized.name = false
                    ∧ Text.isBlankText t.normalized.fullName = false) → c.problems = []) := by
  have hstart : (start : State).1.Coherent (.ofManifest path manifest keys) :=
    Registry.coherent_empty _
  obtain ⟨hcoherent, hreply⟩ :=
    coherent_of_mem_session (p := ofManifest path manifest conventions keys) hstart hstep
  refine ⟨hcoherent, hreply, fun c hc => ?_⟩
  have hextracted : c.ExtractedFrom (.ofManifest path manifest keys) := hreply (.cache c) hc
  refine ⟨fun problem hproblem => hextracted.emptyName hproblem, fun hnames => ?_⟩
  -- A name in the cache is a full name or a short name of the manifest.
  refine hextracted.problems_eq_nil fun name hname => ?_
  obtain ⟨t, ht, rfl | rfl⟩ := names_ofManifest hname
  · exact (hnames t ht).2
  · exact (hnames t ht).1

/-- A lamp has a position and a list of parts; one of the parts cannot be read. -/
def lampManifest : ModuleManifest where
  name := "Lamps"
  types :=
    [TypeInfo.ofClass "Verse.Def",
      ((TypeInfo.ofClass "Mod.LampDef").withBase "Verse.Def").withMember
        { name := "parts", type := .list (.named "Mod.Part") },
      (TypeInfo.ofClass "Mod.Part").asAbstract.withMember
        { name := "lamp", type := .named "Mod.LampDef" },
      ((TypeInfo.ofClass "Mod.Bulb").withBase "Mod.Part").withMember
        { name := "offset", type := .named "Mod.Vector" },
      (TypeInfo.ofClass "Mod.Vector").withMember { name := "x", type := .named "System.Single" },
      ((TypeInfo.ofClass "Mod.Cord").withBase "Mod.Part").withLoadError "broken"]

/-- The first step of a session of the manifest. -/
def lampStep : Except IntrospectionError Reply × State :=
  (ofManifest "lamps.json" lampManifest {}).perform (.flattenFields "Mod.LampDef") start

/-- The list of parts is read although one of the parts is broken, and what it refers to is
there. -/
theorem session_handles_lamps :
    lampStep.1.toOption = some (.fields [.polymorphicList "parts" "List<Mod.Part>" 2 [0, 1]])
      ∧ lampStep.2.1.schemas.length = 3 ∧ lampStep.2.1.variants.length = 2
      ∧ lampStep.2.1.Coherent (.ofManifest "lamps.json" lampManifest)
      ∧ (Field.polymorphicList "parts" "List<Mod.Part>" 2 [0, 1]).Extracted
          lampStep.2.1.sizes := by
  have hstep : lampStep ∈ (ofManifest "lamps.json" lampManifest {}).session
      [.flattenFields "Mod.LampDef"] start := List.mem_cons_self
  have hanswer : lampStep.1.toOption =
      some (.fields [.polymorphicList "parts" "List<Mod.Part>" 2 [0, 1]]) := by decide +kernel
  have hschemas : lampStep.2.1.schemas.length = 3 := by decide +kernel
  have hvariants : lampStep.2.1.variants.length = 2 := by decide +kernel
  obtain ⟨hcoherent, hreply, -⟩ := session_handles hstep
  refine ⟨hanswer, hschemas, hvariants, hcoherent, ?_⟩
  -- The operation has answered, or there would be no list of parts.
  cases hresult : lampStep.1 with
  | error e =>
    rw [hresult] at hanswer
    cases hanswer
  | ok reply =>
    rw [hresult] at hanswer
    obtain rfl := Option.some.inj hanswer
    exact hreply _ hresult _ List.mem_cons_self

end Pass

end SchemaGraph
