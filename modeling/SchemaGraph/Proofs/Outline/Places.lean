import SchemaGraph.Outline
import SchemaGraph.Proofs.Model.Arena
import SchemaGraph.Proofs.Validation

/-!
# Places in an Outline

A line of an outline stands for a *place*: a field together with the fields that it is shown below.
The outline is told by its places.  A place opens into the fields below it unless its handle is
carried by a field it is below, and a line is marked for that reason and no other.

- `OutlinePlace.Shown`: the places of an outline, by the ways in which they come about
- `Arenas.mem_places_iff`: the places that are listed are those
- `Arenas.outlineLines_eq_map`: the lines are those of the places
- `OutlinePlace.Shown.nodup_path`: the fields that a place is below carry different handles
- `Cache.outline_marks_iff`: when the marks are those of fields whose schema is entered again
-/

namespace SchemaGraph

/-- A field that is shown, and the fields it is shown below, the innermost first. -/
structure OutlinePlace where
  enclosing : List Field
  field : Field

namespace OutlinePlace

/-! ## §1 Places -/

/-- The number of levels down to the place. -/
def depth (p : OutlinePlace) : Nat := p.enclosing.length + 1

/-- The handles of the fields that the place is below. -/
def path (p : OutlinePlace) : List Handle := p.enclosing.map (·.schemaId)

/-- The place of a field right below. -/
def child (p : OutlinePlace) (f : Field) : OutlinePlace := ⟨p.field :: p.enclosing, f⟩

/-- The line of the place: it is marked if a field that the place is below carries its handle. -/
def line (p : OutlinePlace) : OutlineLine :=
  ⟨p.depth, p.field, p.path.contains p.field.schemaId⟩

/-- The place enters a schema again that a field it is below has entered. -/
def Reenters (p : OutlinePlace) : Prop :=
  0 ≤ p.field.schemaId ∧ ∃ f ∈ p.enclosing, f.schemaId = p.field.schemaId

/-- The place opens into fields below it: nothing above carries its handle, the depth permits it,
and its field has structure that is known. -/
structure Opens (arenas : Arenas) (maxDepth : Nat) (p : OutlinePlace) (children : List Field) :
    Prop where
  fresh : p.field.schemaId ∉ p.path
  depth : p.depth < maxDepth
  structured : p.field.kind.hasStructure = true
  below : arenas.below? p.field = some children

/-- The places of the outline of fields. -/
inductive Shown (arenas : Arenas) (maxDepth : Nat) (fields : List Field) : OutlinePlace → Prop where
  | top {f : Field} (hf : f ∈ fields) : Shown arenas maxDepth fields ⟨[], f⟩
  | inner {p : OutlinePlace} {children : List Field} {f : Field}
      (hp : Shown arenas maxDepth fields p) (hopens : p.Opens arenas maxDepth children)
      (hf : f ∈ children) : Shown arenas maxDepth fields (p.child f)

end OutlinePlace

namespace Arenas

open OutlinePlace

/-- The places of fields below others, and of what is below them for `levels` further levels. -/
def placesWithin (arenas : Arenas) :
    (levels : Nat) → (enclosing : List Field) → List Field → List OutlinePlace
  | 0, enclosing, fields => fields.map fun f => ⟨enclosing, f⟩
  | levels + 1, enclosing, fields =>
    fields.flatMap fun f =>
      ⟨enclosing, f⟩ ::
        if f.schemaId ∈ enclosing.map (·.schemaId) ∨ ¬ f.kind.hasStructure then []
        else
          match arenas.below? f with
          | some children => placesWithin arenas levels (f :: enclosing) children
          | none => []

/-- The places of an outline, in the order of its lines. -/
def places (arenas : Arenas) (maxDepth : Nat) (fields : List Field) : List OutlinePlace :=
  arenas.placesWithin (maxDepth - 1) [] fields

variable {arenas : Arenas} {maxDepth levels : Nat} {enclosing fields children : List Field}
  {p : OutlinePlace} {f : Field}

/-! ## §2 Lines -/

/-- **The lines of an outline** are those of its places. -/
theorem outlineLines_eq_map (arenas : Arenas) (levels : Nat) (enclosing fields : List Field) :
    outlineLines arenas levels (enclosing.length + 1) (enclosing.map (·.schemaId)) fields =
      (arenas.placesWithin levels enclosing fields).map line := by
  induction levels generalizing enclosing fields with
  | zero =>
    rw [outlineLines, placesWithin, List.map_map]
    rfl
  | succ levels ih =>
    rw [outlineLines, placesWithin, List.map_flatMap]
    -- Field by field: the line of the field itself, then the lines of what is below it.
    refine congrArg (List.flatMap · fields) (funext fun f => ?_)
    rw [List.map_cons]
    refine congrArg (List.cons _) ?_
    simp only [List.contains_iff_mem]
    split
    · rfl
    · cases arenas.below? f with
      | none => rfl
      | some children => exact ih (f :: enclosing) children

/-! ## §3 Which places there are -/

theorem mem_placesWithin_succ : p ∈ arenas.placesWithin (levels + 1) enclosing fields ↔
    ∃ f ∈ fields, p = ⟨enclosing, f⟩ ∨
      f.schemaId ∉ enclosing.map (·.schemaId) ∧ f.kind.hasStructure = true ∧
        ∃ children, arenas.below? f = some children ∧
          p ∈ arenas.placesWithin levels (f :: enclosing) children := by
  rw [placesWithin, List.mem_flatMap]
  -- The field is marked or has no structure, so nothing is below it; or its children are listed.
  refine exists_congr fun f => and_congr_right fun _ => ?_
  rw [List.mem_cons]
  refine or_congr_right ?_
  split
  next hclosed =>
    refine iff_of_false List.not_mem_nil fun ⟨hfresh, hstructured, _⟩ => ?_
    exact hclosed.elim hfresh fun hnone => hnone hstructured
  next hopen =>
    obtain ⟨hfresh, hstructured⟩ := not_or.1 hopen
    cases arenas.below? f <;> simp [hfresh, Decidable.not_not.1 hstructured]

/-- What is listed is shown, if the fields it starts with are shown. -/
theorem shown_of_mem_placesWithin {root : List Field}
    (hfields : ∀ f ∈ fields, Shown arenas maxDepth root ⟨enclosing, f⟩)
    (hlevels : enclosing.length + levels ≤ maxDepth - 1)
    (hp : p ∈ arenas.placesWithin levels enclosing fields) : Shown arenas maxDepth root p := by
  induction levels generalizing enclosing fields with
  | zero =>
    obtain ⟨f, hf, rfl⟩ := List.mem_map.1 hp
    exact hfields f hf
  | succ levels ih =>
    obtain ⟨f, hf, rfl | ⟨hfresh, hstructured, children, hbelow, hp⟩⟩ := mem_placesWithin_succ.1 hp
    · exact hfields f hf
    -- The field is opened, so its children are shown, and they are on one level less.
    · have hopens : (⟨enclosing, f⟩ : OutlinePlace).Opens arenas maxDepth children :=
        ⟨hfresh, show enclosing.length + 1 < maxDepth by omega, hstructured, hbelow⟩
      have hchildren : ∀ g ∈ children, Shown arenas maxDepth root ⟨f :: enclosing, g⟩ :=
        fun g hg => (hfields f hf).inner hopens hg
      refine ih hchildren ?_ hp
      rw [List.length_cons]
      omega

/-- What is right below a listed place is listed, as far down as places are. -/
theorem child_mem_placesWithin (hp : p ∈ arenas.placesWithin levels enclosing fields)
    (hopens : p.Opens arenas maxDepth children)
    (hlevels : p.enclosing.length < enclosing.length + levels) (hf : f ∈ children) :
    p.child f ∈ arenas.placesWithin levels enclosing fields := by
  induction levels generalizing enclosing fields with
  | zero =>
    obtain ⟨g, -, rfl⟩ := List.mem_map.1 hp
    simp at hlevels
  | succ levels ih =>
    obtain ⟨g, hg, rfl | ⟨hfresh, hstructured, children', hbelow, hp⟩⟩ :=
      mem_placesWithin_succ.1 hp
    -- The place is that of one of the fields, or one further down.
    · refine mem_placesWithin_succ.2
        ⟨g, hg, .inr ⟨hopens.fresh, hopens.structured, children, hopens.below, ?_⟩⟩
      cases levels with
      | zero => exact List.mem_map.2 ⟨f, hf, rfl⟩
      | succ levels => exact mem_placesWithin_succ.2 ⟨f, hf, .inl rfl⟩
    · refine mem_placesWithin_succ.2 ⟨g, hg, .inr ⟨hfresh, hstructured, children', hbelow, ?_⟩⟩
      refine ih hp ?_
      rw [List.length_cons]
      omega

/-- **The places that are listed** are those that are shown. -/
theorem mem_places_iff : p ∈ arenas.places maxDepth fields ↔ Shown arenas maxDepth fields p := by
  constructor
  · exact shown_of_mem_placesWithin (fun f hf => .top hf) (Nat.le_of_eq (Nat.zero_add _))
  · intro h
    -- By induction on how the place is shown: as one of the fields, or right below a shown place.
    induction h with
    | top hf =>
      rw [places]
      cases maxDepth - 1 with
      | zero => exact List.mem_map.2 ⟨_, hf, rfl⟩
      | succ levels => exact mem_placesWithin_succ.2 ⟨_, hf, .inl rfl⟩
    | inner _ hopens hf ih =>
      have hdepth := hopens.depth
      rw [OutlinePlace.depth] at hdepth
      exact child_mem_placesWithin ih hopens (by simp only [List.length_nil]; omega) hf

/-- What is below a field is attached to it or belongs to its schema. -/
theorem mem_of_below? {g : Field} (hbelow : arenas.below? f = some children) (hg : g ∈ children) :
    g ∈ f.childList ∨ ∃ s ∈ arenas.schemas, g ∈ s.fields := by
  unfold below? at hbelow
  split at hbelow
  next inline hinline =>
    obtain rfl := Option.some.inj hbelow
    exact .inl (Field.mem_childList_of_inline hinline hg)
  next hinline =>
    obtain ⟨s, hs, rfl⟩ := Option.map_eq_some_iff.1 hbelow
    obtain ⟨i, hi, -, rfl⟩ := exists_getElem_of_entryAt? hs
    exact .inr ⟨arenas.schemas[i], List.getElem_mem hi, hg⟩

end Arenas

/-! ## §4 What is above a place -/

namespace OutlinePlace.Shown

variable {arenas : Arenas} {maxDepth : Nat} {fields : List Field} {p : OutlinePlace}

/-- **Handles above a place are different**: a field is opened only if nothing above it carries its
handle. -/
theorem nodup_path (h : Shown arenas maxDepth fields p) : p.path.Nodup := by
  induction h with
  | top hf => exact .nil
  | inner _ hopens _ ih => exact List.nodup_cons.2 ⟨hopens.fresh, ih⟩

/-- What holds of all fields there are holds of the field that is shown and of those above it. -/
theorem everywhere {P : Field → Prop} (hfields : ∀ f ∈ fields, f.Everywhere P)
    (hschemas : ∀ s ∈ arenas.schemas, ∀ f ∈ s.fields, f.Everywhere P)
    (h : Shown arenas maxDepth fields p) : p.field.Everywhere P ∧ ∀ f ∈ p.enclosing, P f := by
  induction h with
  | top hf => exact ⟨hfields _ hf, by simp⟩
  | inner _ hopens hf ih =>
    obtain ⟨hfield, habove⟩ := ih
    refine ⟨?_, List.forall_mem_cons.2 ⟨hfield.here, habove⟩⟩
    obtain hattached | ⟨s, hs, hmem⟩ := Arenas.mem_of_below? hopens.below hf
    · exact hfield.child hattached
    · exact hschemas s hs _ hmem

end OutlinePlace.Shown

/-! ## §5 Outlines of a cache -/

namespace Cache

open OutlinePlace

variable {c : Cache} {typeName : String} {fields : List Field}

theorem mem_heldFields_of_describe? (h : c.describe? typeName = some fields) :
    ∀ f ∈ fields, f ∈ c.heldFields := by
  intro f hf
  rw [mem_heldFields]
  unfold describe? at h
  split at h
  -- A name is looked up among the definitions, then the schemas, then the variants.
  next d hd =>
    obtain rfl := Option.some.inj h
    exact .inl ⟨d, List.mem_of_find?_eq_some hd, hf⟩
  next =>
    split at h
    next s hs =>
      obtain rfl := Option.some.inj h
      exact .inr (.inl ⟨s, List.mem_of_find?_eq_some hs, hf⟩)
    next =>
      obtain ⟨v, hv, rfl⟩ := Option.map_eq_some_iff.1 h
      exact .inr (.inr ⟨v, List.mem_of_find?_eq_some hv, hf⟩)

theorem mem_heldFields_of_schema {s : Schema} (hs : s ∈ c.arenas.schemas) :
    ∀ f ∈ s.fields, f ∈ c.heldFields :=
  fun _ hf => mem_heldFields.2 (.inr (.inl ⟨s, hs, hf⟩))

/-- What holds everywhere in the fields of a cache holds of the places of its outlines. -/
theorem everywhere_of_shown {P : Field → Prop} {maxDepth : Nat} {p : OutlinePlace}
    (h : c.describe? typeName = some fields) (hheld : ∀ f ∈ c.heldFields, f.Everywhere P)
    (hp : Shown c.arenas maxDepth fields p) : p.field.Everywhere P ∧ ∀ f ∈ p.enclosing, P f := by
  apply hp.everywhere
  · intro f hf
    exact hheld f (mem_heldFields_of_describe? h f hf)
  · intro s hs f hf
    exact hheld f (mem_heldFields_of_schema hs f hf)

/-- Where structure is attached to fields with a schema only, every opened field has a schema. -/
theorem schemaId_nonneg_of_shown {maxDepth : Nat} {p : OutlinePlace}
    (h : c.describe? typeName = some fields)
    (hattached : ∀ f ∈ c.heldFields,
      f.Everywhere fun g => g.schemaId < 0 → g.inlineChildren? = none)
    (hp : Shown c.arenas maxDepth fields p) : ∀ f ∈ p.enclosing, 0 ≤ f.schemaId := by
  induction hp with
  | top hf => simp
  | @inner p children f hp hopens hf ih =>
    refine List.forall_mem_cons.2 ⟨Int.not_lt.1 fun hneg => ?_, ih⟩
    -- Nothing is below a field with neither structure of its own nor a schema.
    have hinline : p.field.inlineChildren? = none :=
      (everywhere_of_shown h hattached hp).1.here hneg
    have hbelow := hopens.below
    simp [Arenas.below?, hinline, entryAt?_of_neg _ hneg] at hbelow

/-- The text of an outline is that of its places. -/
theorem outline?_eq_places (h : c.describe? typeName = some fields) (maxDepth : Nat) :
    c.outline? typeName maxDepth = some (typeName ++ "\n" ++
      String.join ((c.arenas.places maxDepth fields).map fun p => p.line.render c.arenas)) := by
  have hlines := Arenas.outlineLines_eq_map c.arenas (maxDepth - 1) [] fields
  rw [List.length_nil, Nat.zero_add, List.map_nil] at hlines
  rw [outline?, h, Option.map_some, renderOutline, hlines, List.map_map]
  rfl

/-- **Marks of an outline**: a field is marked exactly if a field that it is shown below carries the
same handle, and is not opened then.  So the marks are those of the fields that enter a schema again
exactly if no field without a schema is shown below one with the same negative handle; as when
structure is attached only to fields with a schema. -/
theorem outline_marks_iff (c : Cache) {typeName : String} {fields : List Field}
    (h : c.describe? typeName = some fields) (maxDepth : Nat) :
    let places := c.arenas.places maxDepth fields
    c.outline? typeName maxDepth = some (typeName ++ "\n" ++
        String.join (places.map fun p => p.line.render c.arenas)) ∧
      (∀ p, p ∈ places ↔ Shown c.arenas maxDepth fields p) ∧
      (∀ p ∈ places, p.line.recursive = true ↔
        ∃ f ∈ p.enclosing, f.schemaId = p.field.schemaId) ∧
      ((∀ p ∈ places, p.line.recursive = true ↔ p.Reenters) ↔
        ∀ p ∈ places, p.field.schemaId < 0 → ∀ f ∈ p.enclosing, f.schemaId ≠ p.field.schemaId) ∧
      ((∀ f ∈ c.heldFields, f.Everywhere fun g => g.schemaId < 0 → g.inlineChildren? = none) →
        ∀ p ∈ places, p.line.recursive = true ↔ p.Reenters) := by
  intro places
  have hmark : ∀ p ∈ places, p.line.recursive = true ↔
      ∃ f ∈ p.enclosing, f.schemaId = p.field.schemaId := by
    intro p _
    rw [OutlinePlace.line, List.contains_iff_mem, OutlinePlace.path, List.mem_map]
  have hmarks : (∀ p ∈ places, p.line.recursive = true ↔ p.Reenters) ↔
      ∀ p ∈ places, p.field.schemaId < 0 → ∀ f ∈ p.enclosing, f.schemaId ≠ p.field.schemaId := by
    refine forall_congr' fun p => forall_congr' fun hp => ?_
    rw [hmark p hp, Reenters]
    constructor
    -- A field without a schema enters none, so it must not be marked.
    · intro hiff hneg f hf hsame
      exact absurd (hiff.1 ⟨f, hf, hsame⟩).1 (Int.not_le.2 hneg)
    -- A field that carries the handle of one above it has a schema, so it enters that again.
    · intro hapart
      refine ⟨fun hcarried => ⟨?_, hcarried⟩, And.right⟩
      obtain ⟨f, hf, hsame⟩ := hcarried
      exact Int.not_lt.1 fun hneg => hapart hneg f hf hsame
  refine ⟨outline?_eq_places h maxDepth, fun p => Arenas.mem_places_iff, hmark, hmarks,
    fun hattached => hmarks.2 fun p hp hneg f hf hsame => ?_⟩
  have habove : 0 ≤ f.schemaId :=
    schemaId_nonneg_of_shown h hattached (Arenas.mem_places_iff.1 hp) f hf
  exact absurd (hsame ▸ habove) (Int.not_le.2 hneg)

/-- The nodes of a ring: each of them leads to another one. -/
def ringCache : Cache where
  definitions :=
    [⟨"GraphDef", "GraphDef", "Def", false, false, "Mod.GraphDef", [.nested "root" "Mod.Node" 0]⟩]
  catalog := .empty
  schemas := [⟨"Mod.Node", [.scalar "value" "System.Single", .nested "next" "Mod.Node" 0]⟩]
  variants := []
  castTable := .empty

theorem outline_marks_iff_ring :
    ringCache.outline? "GraphDef" 10 = some ("GraphDef\n  -- root : Mod.Node\n" ++
        "    -- value : System.Single\n    -- next : Mod.Node (recursive)\n") ∧
      ∀ p ∈ ringCache.arenas.places 10 [.nested "root" "Mod.Node" 0],
        p.line.recursive = true ↔ p.Reenters := by
  have hdescribe : ringCache.describe? "GraphDef" = some [.nested "root" "Mod.Node" 0] := by
    decide
  obtain ⟨htext, -, -, hmarks, -⟩ := outline_marks_iff ringCache hdescribe 10
  exact ⟨htext.trans (by decide), hmarks.2 (by decide)⟩

/-- A graphic whose structure is attached to the field: there is no schema. -/
def graphicCache : Cache where
  definitions :=
    [⟨"ThingDef", "ThingDef", "Def", false, false, "Verse.ThingDef",
      [{ Field.nested "graphic" "Verse.Graphic" noHandle with
          children := some
            [.scalar "texPath" "System.String",
              { Field.nested "size" "Verse.Size" noHandle with
                children := some [.scalar "width" "System.Single"] }] }]⟩]
  catalog := .empty
  schemas := []
  variants := []
  castTable := .empty

/-- No field enters a schema, and two of the three that are shown are marked: the last one, which
is below a marked one, is not shown. -/
theorem outline_marks_without_schema :
    graphicCache.outline? "ThingDef" 3 = some ("ThingDef\n  -- graphic : Verse.Graphic\n" ++
        "    -- texPath : System.String (recursive)\n    -- size : Verse.Size (recursive)\n") ∧
      ∃ fields, graphicCache.describe? "ThingDef" = some fields ∧
        ((graphicCache.arenas.places 3 fields).map fun p => (p.field.name, p.line.recursive)) =
          [("graphic", false), ("texPath", true), ("size", true)] ∧
        ∀ p ∈ graphicCache.arenas.places 3 fields, ¬ p.Reenters := by
  refine ⟨by decide, _, rfl, by decide, ?_⟩
  rintro p hp ⟨hnonneg, -⟩
  revert p
  decide

end Cache

end SchemaGraph
