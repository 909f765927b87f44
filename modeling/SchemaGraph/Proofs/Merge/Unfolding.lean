import SchemaGraph.Proofs.Merge.Soundness
import SchemaGraph.Proofs.Model.Arena

/-!
# What Definitions Unfold to After a Merge

A definition unfolds along a path of names: each name picks a field, and the search goes on among
the fields below it.  A merge matches schemas by name and shape, and shapes do not look through
handles.  So an incoming schema may be matched with one whose fields lead elsewhere, and then the
incoming definitions unfold to something else than before.

- `Cache.unfold_merge`: what an incoming definition unfolds to after a merge, read off the two
  caches before it
- `Cache.FaithfulMatching`: every incoming schema unfolds like the schema it is matched with
- `Cache.keepsUnfolding_iff`: exactly then the merge keeps what definitions unfold to
-/

namespace SchemaGraph

/-! ## §1 Unfolding -/

/-- What a field shows without its handles: variants are shown by short name. -/
structure FieldView where
  name : String
  declaredType : String
  kind : FieldKind
  enumValues : Option (List String)
  variants : Option (List (Option String))
  deriving DecidableEq, Repr

namespace Cache

/-- The short name of the variant at a handle. -/
def variantLabel (c : Cache) (h : Handle) : Option String := (c.variant? h).map (·.fullName)

/-- What a field of the cache shows. -/
def view (c : Cache) (f : Field) : FieldView where
  name := f.name
  declaredType := f.declaredType
  kind := f.kind
  enumValues := f.enumValues
  variants := f.variantIds.map (·.map c.variantLabel)

/-- What the fields on a path of names show, as far as the path can be followed. -/
def unfold (c : Cache) : List Field → List String → List FieldView
  | _, [] => []
  | fields, name :: names =>
    match fields.find? (fun f => f.name = name) with
    | none => []
    | some f => c.view f :: c.unfold (f.childrenIn c.schemas) names

theorem unfold_no_fields (c : Cache) (names : List String) : c.unfold [] names = [] := by
  cases names <;> rfl

theorem unfold_of_missing {c : Cache} {fields : List Field} {name : String}
    (h : fields.find? (fun f => f.name = name) = none) (names : List String) :
    c.unfold fields (name :: names) = [] := by
  rw [unfold, h]

theorem unfold_of_found {c : Cache} {fields : List Field} {name : String} {f : Field}
    (h : fields.find? (fun f => f.name = name) = some f) (names : List String) :
    c.unfold fields (name :: names) = c.view f :: c.unfold (f.childrenIn c.schemas) names := by
  rw [unfold, h]

end Cache

/-! ## §2 Entries and children -/

/-- A handle below the size of the arena that points at nothing is negative. -/
theorem neg_of_entryAt?_eq_none {α : Type} {arena : List α} {h : Handle}
    (hnone : entryAt? arena h = none) (hlt : h < arena.length) : h < 0 := by
  rw [← Int.not_le]
  intro hnonneg
  obtain ⟨i, hi, rfl⟩ := exists_position hnonneg hlt
  rw [entryAt?_natCast, List.getElem?_eq_none_iff] at hnone
  exact Nat.not_lt.2 hnone hi

/-- Appending to an arena leaves what its handles point at. -/
theorem entryAt?_append {α : Type} (xs ys : List α) {h : Handle} (hlt : h < xs.length) :
    entryAt? (xs ++ ys) h = entryAt? xs h := by
  by_cases hneg : h < 0
  · rw [entryAt?_of_neg _ hneg, entryAt?_of_neg _ hneg]
  · obtain ⟨i, hi, rfl⟩ := exists_position (Int.not_lt.1 hneg) hlt
    rw [entryAt?_natCast, entryAt?_natCast, List.getElem?_append_left hi]

namespace Field

/-- The fields below a field are its own, if it has any, else those of its schema. -/
theorem childrenIn_eq (schemas : List Schema) (f : Field) :
    f.childrenIn schemas =
      f.inlineChildren?.getD (((entryAt? schemas f.schemaId).map (·.fields)).getD []) := by
  unfold childrenIn
  cases f.inlineChildren? with
  | some cs => rfl
  | none => cases entryAt? schemas f.schemaId <;> rfl

theorem inlineChildren?_relabel (σ ρ : Handle → Handle) (f : Field) :
    (f.relabel σ ρ).inlineChildren? = f.inlineChildren?.map (·.map (relabel σ ρ)) := by
  unfold inlineChildren?
  rw [relabel_children]
  cases f.children with
  | none => rfl
  | some cs => cases cs <;> rfl

/-- Renaming handles does not change which field has a name. -/
theorem find?_relabel (σ ρ : Handle → Handle) (fs : List Field) (name : String) :
    (fs.map (relabel σ ρ)).find? (fun f => f.name = name) =
      (fs.find? (fun f => f.name = name)).map (relabel σ ρ) := by
  have hname : (fun f : Field => decide (f.name = name)) ∘ relabel σ ρ =
      fun f => decide (f.name = name) := by
    funext f
    rw [Function.comp_apply, relabel_name]
  rw [List.find?_map, hname]

end Field

/-! ## §3 The base is left as it was -/

namespace Cache

variable {base incoming : Cache} {strategy : MergeStrategy}

/-- The schema below a field of an index-valid cache has valid fields again. -/
theorem IndexValid.schema_fields {c : Cache} (hc : c.IndexValid) {h : Handle} {s : Schema}
    (hs : c.schema? h = some s) : ∀ f ∈ s.fields, f.Everywhere (Field.HandlesIn c.sizes) := by
  obtain ⟨i, hi, -, rfl⟩ := exists_getElem_of_entryAt? hs
  intro f hf
  exact hc.fields f (mem_heldFields.2 (.inr (.inl ⟨_, List.getElem_mem hi, hf⟩)))

theorem IndexValid.childrenIn {c : Cache} (hc : c.IndexValid) {f : Field}
    (hf : f.Everywhere (Field.HandlesIn c.sizes)) :
    ∀ g ∈ f.childrenIn c.schemas, g.Everywhere (Field.HandlesIn c.sizes) := by
  intro g hg
  -- The children are those attached to the field, or those of its schema, if it has one.
  rw [Field.childrenIn_eq] at hg
  cases hinline : f.inlineChildren? with
  | some cs =>
    rw [hinline] at hg
    exact hf.child (Field.mem_childList_of_inline hinline hg)
  | none =>
    rw [hinline] at hg
    cases hs : entryAt? c.schemas f.schemaId with
    | none => simp [hs] at hg
    | some s =>
      rw [hs] at hg
      exact hc.schema_fields hs g hg

/-- Below a field of the base there is what was there before the merge. -/
theorem childrenIn_merge (strategy : MergeStrategy) (incoming : Cache) {f : Field}
    (hf : f.HandlesIn base.sizes) :
    f.childrenIn (base.merge strategy incoming).schemas = f.childrenIn base.schemas := by
  rw [Field.childrenIn_eq, Field.childrenIn_eq, merge_schemas, entryAt?_append _ _ hf.schema]

/-- **The base keeps its unfoldings**: its handles point at what they pointed at. -/
theorem unfold_merge_base (hbase : base.IndexValid) (strategy : MergeStrategy)
    (incoming : Cache) {fields : List Field}
    (hfields : ∀ f ∈ fields, f.Everywhere (Field.HandlesIn base.sizes)) (names : List String) :
    (base.merge strategy incoming).unfold fields names = base.unfold fields names := by
  induction names generalizing fields with
  | nil => rfl
  | cons name names ih =>
    cases hfind : fields.find? (fun f => f.name = name) with
    | none => rw [unfold_of_missing hfind, unfold_of_missing hfind]
    | some f =>
      have hf := hfields f (List.mem_of_find?_eq_some hfind)
      -- The field shows the same, since its variants are where they were.
      have hlabel : ∀ v ∈ f.variantIds.getD [],
          (base.merge strategy incoming).variantLabel v = base.variantLabel v := by
        intro v hv
        unfold variantLabel variant?
        rw [merge_variants, entryAt?_append _ _ (hf.here.variants v hv).2]
      have hview : (base.merge strategy incoming).view f = base.view f := by
        unfold view
        rw [Field.map_handles_congr hlabel]
      -- The search goes on below the same fields.
      have hchildren := childrenIn_merge strategy incoming hf.here
      rw [unfold_of_found hfind, unfold_of_found hfind, hview, hchildren,
        ih (hbase.childrenIn hf)]

end Cache

/-! ## §4 Matched schemas -/

/-- The first entry with a key is found at the position of the key. -/
theorem find?_eq_getElem?_idxOf {α κ : Type} [DecidableEq κ] (key : α → κ) (xs : List α) (k : κ) :
    xs.find? (fun x => key x = k) = xs[(xs.map key).idxOf k]? := by
  induction xs with
  | nil => rfl
  | cons x xs ih =>
    rw [List.find?_cons, List.map_cons, List.idxOf_cons]
    by_cases hx : key x = k
    · simp [hx]
    · have hbeq : (key x == k) = false := beq_eq_false_iff_ne.2 hx
      simp [hx, hbeq, ih]

/-- The first entry of a key that is not known stays. -/
theorem find?_newcomers {α κ : Type} [DecidableEq κ] (key : α → κ) {known : List κ} {k : κ}
    (hk : k ∉ known) (xs : List α) :
    (newcomers key known xs).find? (fun x => key x = k) = xs.find? (fun x => key x = k) := by
  induction xs generalizing known with
  | nil => rfl
  | cons x xs ih =>
    rw [newcomers, List.find?_cons]
    by_cases hx : key x = k
    · -- `x` is the entry that is looked for, and it is kept.
      have hx' : key x ∉ known := hx ▸ hk
      rw [if_neg hx', List.find?_cons]
      simp [hx]
    -- `x` is another entry, so that it is passed over whether it is kept or not.
    · split
      · simpa [hx] using ih hk
      · have hk' : k ∉ key x :: known := by
          rw [List.mem_cons]
          rintro (h | h)
          · exact hx h.symm
          · exact hk h
        rw [List.find?_cons]
        simpa [hx] using ih hk'

namespace Cache

variable (base incoming : Cache)

/-- The base schema that an incoming schema is matched with. -/
def baseMatch? (s : Schema) : Option Schema :=
  base.schemas.find? fun b => b.shape id = MergePlan.incomingShape base incoming s

/-- The incoming schema that is appended for an incoming schema without a match in the base: the
first one of the same name and shape. -/
def incomingMatch? (s : Schema) : Option Schema :=
  incoming.schemas.find? fun t =>
    MergePlan.incomingShape base incoming t = MergePlan.incomingShape base incoming s

variable {base incoming} {strategy : MergeStrategy}

/-- **What a renamed handle points at**: the base schema that the incoming schema is matched with,
or a copy of the incoming one that stands for it. -/
theorem schema?_merge {h : Handle} {s : Schema} (hs : incoming.schema? h = some s) :
    (base.merge strategy incoming).schema? ((MergePlan.of base incoming).schemaName h) =
      (base.baseMatch? incoming s).or
        ((base.incomingMatch? incoming s).map
          (Schema.relabel (MergePlan.of base incoming).schemaName
            (MergePlan.of base incoming).variantName)) := by
  obtain ⟨i, hi, rfl, rfl⟩ := exists_getElem_of_entryAt? hs
  -- A renamed handle is the position of a key among the merged ones, so that its schema is the
  -- first one of that key.
  have hkeys : MergePlan.schemaKeys base incoming =
      (base.merge strategy incoming).schemas.map (Schema.shape id) := schemaKeys_eq strategy
  rw [MergePlan.schemaName_natCast hi, schema?, entryAt?_natCast, hkeys,
    ← find?_eq_getElem?_idxOf, merge_schemas, List.find?_append, List.find?_map]
  have hcopy : ∀ t : Schema, ((fun u : Schema =>
        decide (u.shape id = MergePlan.incomingShape base incoming incoming.schemas[i])) ∘
      Schema.relabel (MergePlan.of base incoming).schemaName
        (MergePlan.of base incoming).variantName) t =
      decide (MergePlan.incomingShape base incoming t =
        MergePlan.incomingShape base incoming incoming.schemas[i]) := by
    intro t
    rw [Function.comp_apply, Schema.shape_relabel]
    rfl
  -- The merged arena is searched in the base first, then among the copies.
  cases hbase : base.baseMatch? incoming incoming.schemas[i] with
  | some b =>
    unfold baseMatch? at hbase
    rw [hbase, Option.some_or, Option.some_or]
  | none =>
    unfold baseMatch? at hbase
    have hnew : MergePlan.incomingShape base incoming incoming.schemas[i] ∉
        base.schemas.map (Schema.shape id) := by
      intro hmem
      obtain ⟨b, hb, hshape⟩ := List.mem_map.1 hmem
      exact List.find?_eq_none.1 hbase b hb (decide_eq_true hshape)
    rw [hbase, Option.none_or, Option.none_or, funext hcopy, MergePlan.addedSchemas_eq,
      find?_newcomers _ hnew]
    rfl

/-- An incoming schema has a match: itself, if no earlier schema is like it. -/
theorem exists_incomingMatch? (base : Cache) {s : Schema} (hs : s ∈ incoming.schemas) :
    ∃ t ∈ incoming.schemas, base.incomingMatch? incoming s = some t ∧
      MergePlan.incomingShape base incoming t = MergePlan.incomingShape base incoming s := by
  have hsome : (base.incomingMatch? incoming s).isSome := by
    unfold incomingMatch?
    rw [List.find?_isSome]
    exact ⟨s, hs, decide_eq_true rfl⟩
  obtain ⟨t, ht⟩ := Option.isSome_iff_exists.1 hsome
  have hlike := List.find?_some ht
  exact ⟨t, List.mem_of_find?_eq_some ht, ht, of_decide_eq_true hlike⟩

/-! ## §5 Unfolding after a merge -/

/-- What incoming fields unfold to when every schema gives way to the one it is matched with: from
a match in the base on, the base decides. -/
def unfoldMatched (base incoming : Cache) : List Field → List String → List FieldView
  | _, [] => []
  | fields, name :: names =>
    match fields.find? (fun f => f.name = name) with
    | none => []
    | some f => incoming.view f ::
      match f.inlineChildren? with
      | some children => unfoldMatched base incoming children names
      | none =>
        match incoming.schema? f.schemaId with
        | none => []
        | some s =>
          match base.baseMatch? incoming s with
          | some b => base.unfold b.fields names
          | none =>
            unfoldMatched base incoming (((base.incomingMatch? incoming s).getD s).fields) names

/-- A renamed field shows what the incoming field shows: variants keep their short names. -/
theorem view_relabel {f : Field} (hf : f.HandlesIn incoming.sizes) :
    (base.merge strategy incoming).view (f.relabel (MergePlan.of base incoming).schemaName
      (MergePlan.of base incoming).variantName) = incoming.view f := by
  -- Each variant has a name, and renaming leads to the variant that bears this name.
  have hlabel : ∀ v ∈ f.variantIds.getD [],
      (base.merge strategy incoming).variantLabel ((MergePlan.of base incoming).variantName v) =
        incoming.variantLabel v := by
    intro v hv
    obtain ⟨i, hi, rfl⟩ := exists_position (hf.variants v hv).1 (hf.variants v hv).2
    have hi' : i < incoming.variants.length := hi
    have hmem : incoming.variants[i].fullName ∈ MergePlan.variantKeys base incoming :=
      MergePlan.key_mem_variantKeys (List.getElem_mem hi')
    have hlt := List.idxOf_lt_length_of_mem hmem
    have hname : (MergePlan.variantKeys base incoming)[(MergePlan.variantKeys base incoming).idxOf
        incoming.variants[i].fullName]? = some incoming.variants[i].fullName := by
      rw [List.getElem?_eq_getElem hlt, List.getElem_idxOf hlt]
    rw [MergePlan.variantName_natCast hi', variantLabel, variantLabel, variant?, variant?,
      entryAt?_natCast, entryAt?_natCast, ← List.getElem?_map, ← variantKeys_eq, hname,
      List.getElem?_eq_getElem hi', Option.map_some]
  unfold view
  rw [Field.relabel_variantIds, Option.map_map]
  have hids : f.variantIds.map (List.map (base.merge strategy incoming).variantLabel ∘
      List.map (MergePlan.of base incoming).variantName) =
      f.variantIds.map (List.map incoming.variantLabel) := by
    rw [← Field.map_handles_congr hlabel]
    simp only [Function.comp_def, List.map_map]
  rw [hids]
  simp

/-- One step through a schema handle: in the merged cache the renamed handle leads to the match of
the schema, whose fields unfold as they do in the cache that it is from. -/
private theorem unfold_schema_merge (hbase : base.IndexValid) (hincoming : incoming.IndexValid)
    {h : Handle} {s : Schema} (hschema : incoming.schema? h = some s) {names : List String}
    (ih : ∀ {fields : List Field}, (∀ f ∈ fields, f.Everywhere (Field.HandlesIn incoming.sizes)) →
      (base.merge strategy incoming).unfold (fields.map (Field.relabel
        (MergePlan.of base incoming).schemaName (MergePlan.of base incoming).variantName)) names =
          base.unfoldMatched incoming fields names) :
    (base.merge strategy incoming).unfold ((((base.merge strategy incoming).schema?
        ((MergePlan.of base incoming).schemaName h)).map (·.fields)).getD []) names =
      match base.baseMatch? incoming s with
      | some b => base.unfold b.fields names
      | none =>
        base.unfoldMatched incoming (((base.incomingMatch? incoming s).getD s).fields) names := by
  have hs : s ∈ incoming.schemas := by
    obtain ⟨i, hi, -, rfl⟩ := exists_getElem_of_entryAt? hschema
    exact List.getElem_mem hi
  rw [schema?_merge hschema]
  cases hmatch : base.baseMatch? incoming s with
  | some b =>
    -- A base schema stays where it was, and so does everything below it.
    have hb : b ∈ base.schemas := List.mem_of_find?_eq_some hmatch
    exact unfold_merge_base hbase strategy incoming
      (fun c hc => hbase.fields c (mem_heldFields.2 (.inr (.inl ⟨b, hb, hc⟩)))) names
  | none =>
    -- The copy of the match has the renamed fields of the match.
    obtain ⟨t, ht, hsame, -⟩ := exists_incomingMatch? base hs
    rw [hsame, Option.none_or, Option.map_some, Option.map_some, Option.getD_some,
      Schema.relabel_fields]
    exact ih fun c hc => hincoming.fields c (mem_heldFields.2 (.inr (.inl ⟨t, ht, hc⟩)))

/-- **Unfolding after a merge**: the merged cache shows below incoming fields what the two caches
show when every schema gives way to its match. -/
theorem unfold_merge (hbase : base.IndexValid) (hincoming : incoming.IndexValid)
    (strategy : MergeStrategy) {fields : List Field}
    (hfields : ∀ f ∈ fields, f.Everywhere (Field.HandlesIn incoming.sizes))
    (names : List String) :
    (base.merge strategy incoming).unfold
        (fields.map (Field.relabel (MergePlan.of base incoming).schemaName
          (MergePlan.of base incoming).variantName)) names =
      base.unfoldMatched incoming fields names := by
  induction names generalizing fields with
  | nil => rfl
  | cons name names ih =>
    rw [unfoldMatched]
    cases hfind : fields.find? (fun f => f.name = name) with
    | none =>
      apply unfold_of_missing
      rw [Field.find?_relabel, hfind, Option.map_none]
    | some f =>
      have hf := hfields f (List.mem_of_find?_eq_some hfind)
      have hfound := Field.find?_relabel (MergePlan.of base incoming).schemaName
        (MergePlan.of base incoming).variantName fields name
      rw [hfind, Option.map_some] at hfound
      rw [unfold_of_found hfound, view_relabel hf.here, Field.childrenIn_eq,
        Field.inlineChildren?_relabel, Field.relabel_schemaId]
      show _ :: _ = incoming.view f :: _
      congr 1
      cases hinline : f.inlineChildren? with
      | some children =>
        -- The structure attached to the field is renamed along with it.
        exact ih fun c hc => hf.child (Field.mem_childList_of_inline hinline hc)
      | none =>
        rw [Option.map_none, Option.getD_none]
        show unfold _ (((schema? _ _).map _).getD []) names = _
        cases hschema : incoming.schema? f.schemaId with
        | none =>
          -- A valid handle that points at nothing is no handle, before and after the merge.
          have hneg : f.schemaId < 0 := neg_of_entryAt?_eq_none hschema hf.here.schema
          rw [MergePlan.schemaName_of_neg hneg, schema?, entryAt?_of_neg _ hneg]
          exact unfold_no_fields _ _
        | some s => exact unfold_schema_merge hbase hincoming hschema ih

/-! ## §6 When unfoldings are kept -/

/-- The merge keeps unfoldings: the copy of every incoming definition unfolds along every path as
the definition did, in what is shown and in how far it goes. -/
def KeepsUnfolding (base incoming : Cache) : Prop :=
  ∀ i (hi : i < incoming.definitions.length), ∃ copy : Definition,
    (base.merge .append incoming).definitions[base.definitions.length + i]? = some copy ∧
      ∀ names : List String, (base.merge .append incoming).unfold copy.fields names =
        incoming.unfold incoming.definitions[i].fields names

/-- What the match of an incoming schema unfolds to, in the cache that it is from. -/
def unfoldMatch (base incoming : Cache) (s : Schema) (names : List String) : List FieldView :=
  match base.baseMatch? incoming s with
  | some b => base.unfold b.fields names
  | none => incoming.unfold ((base.incomingMatch? incoming s).getD s).fields names

/-- **Faithful matching**: every incoming schema unfolds like the schema that it is matched
with. -/
def FaithfulMatching (base incoming : Cache) : Prop :=
  ∀ s ∈ incoming.schemas, ∀ names : List String,
    base.unfoldMatch incoming s names = incoming.unfold s.fields names

theorem getElem?_definitions_append (base incoming : Cache) (i : Nat) :
    (base.merge .append incoming).definitions[base.definitions.length + i]? =
      incoming.definitions[i]?.map (Definition.relabel (MergePlan.of base incoming).schemaName
        (MergePlan.of base incoming).variantName) := by
  show (base.definitions ++ incoming.definitions.map _)[base.definitions.length + i]? = _
  rw [List.getElem?_append_right (Nat.le_add_right _ _), Nat.add_sub_cancel_left,
    List.getElem?_map]

/-- For the definitions that are there, the unfoldings by matches have to be right. -/
theorem keepsUnfolding_iff_unfoldMatched (hbase : base.IndexValid)
    (hincoming : incoming.IndexValid) :
    base.KeepsUnfolding incoming ↔ ∀ d ∈ incoming.definitions, ∀ names : List String,
      base.unfoldMatched incoming d.fields names = incoming.unfold d.fields names := by
  -- What a definition loses by the merge is told by its copy, which unfolds by matches.
  have hcopy : ∀ d ∈ incoming.definitions, ∀ names : List String,
      (base.merge .append incoming).unfold (d.relabel (MergePlan.of base incoming).schemaName
        (MergePlan.of base incoming).variantName).fields names =
          base.unfoldMatched incoming d.fields names := by
    intro d hd names
    rw [Definition.relabel_fields]
    exact unfold_merge hbase hincoming .append
      (fun f hf => hincoming.fields f (mem_heldFields.2 (.inl ⟨d, hd, hf⟩))) names
  constructor
  · intro h d hd names
    obtain ⟨i, hi, rfl⟩ := List.getElem_of_mem hd
    obtain ⟨copy, hget, hkeeps⟩ := h i hi
    rw [getElem?_definitions_append, List.getElem?_eq_getElem hi, Option.map_some,
      Option.some.injEq] at hget
    rw [← hkeeps names, ← hget, hcopy _ hd]
  · intro h i hi
    refine ⟨incoming.definitions[i].relabel (MergePlan.of base incoming).schemaName
      (MergePlan.of base incoming).variantName, ?_, fun names => ?_⟩
    · rw [getElem?_definitions_append, List.getElem?_eq_getElem hi, Option.map_some]
    · rw [hcopy _ (List.getElem_mem hi), h _ (List.getElem_mem hi)]

/-- Faithful matching makes the unfoldings by matches right, step by step. -/
theorem FaithfulMatching.unfoldMatched_eq (h : base.FaithfulMatching incoming)
    (fields : List Field) (names : List String) :
    base.unfoldMatched incoming fields names = incoming.unfold fields names := by
  induction names generalizing fields with
  | nil => rfl
  | cons name names ih =>
    rw [unfoldMatched, unfold]
    cases fields.find? (fun f => f.name = name) with
    | none => rfl
    | some f =>
      show incoming.view f :: _ = incoming.view f :: _
      rw [Field.childrenIn_eq]
      congr 1
      cases f.inlineChildren? with
      | some children => exact ih children
      | none =>
        show _ = incoming.unfold (((incoming.schema? f.schemaId).map (·.fields)).getD []) names
        cases hschema : incoming.schema? f.schemaId with
        | none => exact (unfold_no_fields _ _).symm
        | some s =>
          obtain ⟨i, hi, -, rfl⟩ := exists_getElem_of_entryAt? hschema
          have hfaithful := h _ (List.getElem_mem hi) names
          rw [unfoldMatch] at hfaithful
          cases hmatch : base.baseMatch? incoming incoming.schemas[i] with
          | some b =>
            rw [hmatch] at hfaithful
            simpa [hmatch] using hfaithful
          | none =>
            rw [hmatch] at hfaithful
            simpa [hmatch, ih] using hfaithful

/-- A definition with one field, which has the schema at a position below it. -/
def probe (i : Nat) : Definition :=
  ⟨"probe", "probe", "", false, false, "probe", [.nested "probe" "probe" i]⟩

theorem IndexValid.withProbe (h : incoming.IndexValid) {i : Nat}
    (hi : i < incoming.schemas.length) :
    ({ incoming with definitions := [probe i] } : Cache).IndexValid := by
  constructor
  case fields =>
    intro f hf
    rcases mem_heldFields.1 hf with ⟨d, hd, hf⟩ | hf | hf
    · obtain rfl := List.mem_singleton.1 hd
      obtain rfl := List.mem_singleton.1 hf
      -- A probe has one field, which points at a schema that is there.
      apply Field.everywhere_of_leaf rfl
      refine ⟨Int.ofNat_lt.2 hi, fun v hv => ?_⟩
      cases hv
    · exact h.fields f (mem_heldFields.2 (.inr (.inl hf)))
    · exact h.fields f (mem_heldFields.2 (.inr (.inr hf)))
  case variants => exact h.variants

/-- A probe unfolds to its field and then to its schema. -/
theorem unfold_probe (c : Cache) {i : Nat} (hi : i < c.schemas.length) (names : List String) :
    c.unfold (probe i).fields ("probe" :: names) =
      c.view (.nested "probe" "probe" i) :: c.unfold c.schemas[i].fields names := by
  have hfind : (probe i).fields.find? (fun f => f.name = "probe") =
      some (.nested "probe" "probe" i) := by
    simp [probe, Field.nested, Field.ofKind]
  have hinline : (Field.nested "probe" "probe" i).inlineChildren? = none := rfl
  have hschema : entryAt? c.schemas (Field.nested "probe" "probe" i).schemaId =
      some c.schemas[i] := by
    show entryAt? c.schemas (i : Int) = _
    rw [entryAt?_natCast, List.getElem?_eq_getElem hi]
  rw [unfold_of_found hfind, Field.childrenIn_eq, hinline, hschema]
  rfl

theorem unfoldMatched_probe (base : Cache) {i : Nat} (hi : i < incoming.schemas.length)
    (names : List String) :
    base.unfoldMatched incoming (probe i).fields ("probe" :: names) =
      incoming.view (.nested "probe" "probe" i) ::
        match base.baseMatch? incoming incoming.schemas[i] with
        | some b => base.unfold b.fields names
        | none => base.unfoldMatched incoming
            (((base.incomingMatch? incoming incoming.schemas[i]).getD
              incoming.schemas[i]).fields) names := by
  have hfind : (probe i).fields.find? (fun f => f.name = "probe") =
      some (.nested "probe" "probe" i) := by
    simp [probe, Field.nested, Field.ofKind]
  have hschema : incoming.schema? (Field.nested "probe" "probe" i).schemaId =
      some incoming.schemas[i] := by
    show entryAt? incoming.schemas (i : Int) = _
    rw [entryAt?_natCast, List.getElem?_eq_getElem hi]
  have hinline : (Field.nested "probe" "probe" i).inlineChildren? = none := rfl
  rw [unfoldMatched, hfind]
  simp only [hinline, hschema]

/-- The definitions of a cache do not matter for what fields unfold to. -/
theorem unfold_definitions (c : Cache) (ds : List Definition) (fields : List Field)
    (names : List String) :
    ({ c with definitions := ds } : Cache).unfold fields names = c.unfold fields names := by
  induction names generalizing fields with
  | nil => rfl
  | cons name names ih =>
    rw [unfold, unfold]
    cases fields.find? (fun f => f.name = name) with
    | none => rfl
    | some f => exact congrArg (c.view f :: ·) (ih (f.childrenIn c.schemas))

theorem unfoldMatched_definitions (base c : Cache) (ds : List Definition) (fields : List Field)
    (names : List String) :
    base.unfoldMatched { c with definitions := ds } fields names =
      base.unfoldMatched c fields names := by
  induction names generalizing fields with
  | nil => rfl
  | cons name names ih =>
    have hview : ∀ f, ({ c with definitions := ds } : Cache).view f = c.view f := fun _ => rfl
    have hschema : ∀ h, ({ c with definitions := ds } : Cache).schema? h = c.schema? h :=
      fun _ => rfl
    have hbase : ∀ s, base.baseMatch? { c with definitions := ds } s = base.baseMatch? c s :=
      fun _ => rfl
    have hincoming : ∀ s, base.incomingMatch? { c with definitions := ds } s =
        base.incomingMatch? c s := fun _ => rfl
    simp only [unfoldMatched, hview, hschema, hbase, hincoming, ih]

/-- If no definition over the arenas of the incoming cache loses its unfolding, then matching is
faithful: each schema can be asked for by a definition. -/
theorem faithfulMatching_of_keepsUnfolding (hbase : base.IndexValid)
    (hincoming : incoming.IndexValid)
    (h : ∀ ds : List Definition, ({ incoming with definitions := ds } : Cache).IndexValid →
      base.KeepsUnfolding { incoming with definitions := ds }) :
    base.FaithfulMatching incoming := by
  -- Each schema is asked for by its probe, and the probe keeps its unfolding.
  have hprobe : ∀ i (hi : i < incoming.schemas.length) (names : List String),
      base.unfoldMatched incoming (probe i).fields ("probe" :: names) =
        incoming.unfold (probe i).fields ("probe" :: names) := by
    intro i hi names
    have hvalid := hincoming.withProbe hi
    have hkeeps := (keepsUnfolding_iff_unfoldMatched hbase hvalid).1 (h [probe i] hvalid)
    rw [← unfoldMatched_definitions base incoming [probe i],
      ← unfold_definitions incoming [probe i]]
    exact hkeeps (probe i) List.mem_cons_self ("probe" :: names)
  intro s hs names
  -- What is below the probe is the unfolding of the schema.
  obtain ⟨i, hi, rfl⟩ := List.getElem_of_mem hs
  have hasked := hprobe i hi names
  rw [unfoldMatched_probe base hi, unfold_probe _ hi, List.cons.injEq] at hasked
  rw [unfoldMatch]
  cases hmatch : base.baseMatch? incoming incoming.schemas[i] with
  | some b =>
    rw [hmatch] at hasked
    exact hasked.2
  | none =>
    -- The schema that stands for this one stands for itself as well, so it is copied faithfully.
    obtain ⟨t, ht, hstand, hsame⟩ := exists_incomingMatch? base hs
    rw [hmatch, hstand, Option.getD_some] at hasked
    obtain ⟨j, hj, rfl⟩ := List.getElem_of_mem ht
    have hitself := hprobe j hj names
    have hmatch' : base.baseMatch? incoming incoming.schemas[j] = none := by
      rw [← hmatch, baseMatch?, baseMatch?, hsame]
    have hstand' : base.incomingMatch? incoming incoming.schemas[j] =
        some incoming.schemas[j] := by
      rw [← hstand, incomingMatch?, incomingMatch?, hsame]
    rw [unfoldMatched_probe base hj, unfold_probe _ hj, List.cons.injEq, hmatch', hstand',
      Option.getD_some] at hitself
    rw [hstand, Option.getD_some]
    exact hitself.2.symm.trans hasked.2

/-- **When a merge keeps unfoldings**: for the definitions that the incoming cache has, exactly
when they unfold alike with every schema giving way to its match; for all definitions that could
be stated over its arenas, exactly when matching is faithful. -/
theorem keepsUnfolding_iff {base incoming : Cache} (hbase : base.IndexValid)
    (hincoming : incoming.IndexValid) :
    (base.KeepsUnfolding incoming ↔ ∀ d ∈ incoming.definitions, ∀ names : List String,
        base.unfoldMatched incoming d.fields names = incoming.unfold d.fields names)
      ∧ (base.FaithfulMatching incoming ↔ ∀ ds : List Definition,
          ({ incoming with definitions := ds } : Cache).IndexValid →
            base.KeepsUnfolding { incoming with definitions := ds }) := by
  refine ⟨keepsUnfolding_iff_unfoldMatched hbase hincoming, ?_, ?_⟩
  · intro hfaithful ds hvalid
    refine (keepsUnfolding_iff_unfoldMatched hbase hvalid).2 fun d _ names => ?_
    rw [unfoldMatched_definitions, unfold_definitions, hfaithful.unfoldMatched_eq]
  · exact faithfulMatching_of_keepsUnfolding hbase hincoming

theorem faithfulMatching_gadgets : lampCache.FaithfulMatching gadgetCache := by
  have hvector : lampCache.baseMatch? gadgetCache ⟨"Mod.Vector", [.nested "scale" "Mod.Vector" 0]⟩ =
      none := by decide
  have hstands : lampCache.incomingMatch? gadgetCache
      ⟨"Mod.Vector", [.nested "scale" "Mod.Vector" 0]⟩ =
        some ⟨"Mod.Vector", [.nested "scale" "Mod.Vector" 0]⟩ := by decide
  have hprops : lampCache.baseMatch? gadgetCache
      ⟨"Verse.CompProperties", [.scalar "compClass" "System.Type"]⟩ =
        some ⟨"Verse.CompProperties", [.scalar "compClass" "System.Type"]⟩ := by decide
  intro s hs names
  -- There are two schemas: one is copied, the other one is matched with that of the base.
  rw [unfoldMatch]
  rcases List.mem_cons.1 hs with rfl | hs
  · rw [hvector, hstands]
    rfl
  · obtain rfl := List.mem_singleton.1 hs
    rw [hprops]
    cases names with
    | nil => rfl
    | cons name names =>
      -- The one field is a scalar, so there is nothing below it in either cache.
      by_cases hname : "compClass" = name
      · subst hname
        show _ :: lampCache.unfold [] names = _ :: gadgetCache.unfold [] names
        rw [unfold_no_fields, unfold_no_fields]
        rfl
      · simp [unfold, Field.scalar, Field.ofKind, hname]

theorem keepsUnfolding_gadgets :
    lampCache.IndexValid ∧ gadgetCache.IndexValid ∧ lampCache.KeepsUnfolding gadgetCache := by
  have hlamp : lampCache.IndexValid :=
    (problems_eq_nil_iff.1 (by decide : lampCache.problems = [])).toIndexValid
  have hgadget : gadgetCache.IndexValid :=
    (problems_eq_nil_iff.1 (by decide : gadgetCache.problems = [])).toIndexValid
  refine ⟨hlamp, hgadget, ?_⟩
  exact (keepsUnfolding_iff hlamp hgadget).2.1 faithfulMatching_gadgets gadgetCache.definitions
    hgadget

/-- A definition that leads through one schema to a second one, whose field has the given name. -/
def chainCache (leaf : String) : Cache where
  definitions := [⟨"D", "D", "", false, false, "D", [.nested "o" "Outer" 0]⟩]
  catalog := .empty
  schemas := [⟨"Outer", [.nested "inner" "Inner" 1]⟩, ⟨"Inner", [.scalar leaf "System.Single"]⟩]
  variants := []
  castTable := .empty

/-- Two chains are told apart at their ends only: the outer schemas are taken for the same one,
and the incoming definition loses the end of its chain. -/
theorem not_keepsUnfolding_chain :
    ({ chainCache "x" with definitions := [] } : Cache).IndexValid ∧
      (chainCache "y").IndexValid ∧
      ¬ ({ chainCache "x" with definitions := [] } : Cache).KeepsUnfolding (chainCache "y") := by
  -- Both caches are sound, so no handle dangles; the definition is lost by matching alone.
  refine ⟨?_, ?_, ?_⟩
  · have hsound : ({ chainCache "x" with definitions := [] } : Cache).problems = [] := by decide
    exact (problems_eq_nil_iff.1 hsound).toIndexValid
  · have hsound : (chainCache "y").problems = [] := by decide
    exact (problems_eq_nil_iff.1 hsound).toIndexValid
  · intro h
    obtain ⟨copy, hget, hkeeps⟩ := h 0 (by decide)
    have hcopy : (({ chainCache "x" with definitions := [] } : Cache).merge .append
        (chainCache "y")).definitions[0]? =
          some ⟨"D", "D", "", false, false, "D", [.nested "o" "Outer" 0]⟩ := by decide
    obtain rfl : (⟨"D", "D", "", false, false, "D", [.nested "o" "Outer" 0]⟩ : Definition) = copy :=
      Option.some.inj (hcopy.symm.trans hget)
    -- The path ends at `y` in the incoming cache, and stops at `inner` after the merge.
    exact absurd (hkeeps ["o", "inner", "y"]) (by decide)

end Cache

end SchemaGraph
