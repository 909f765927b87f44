import Mathlib.Data.Finset.Card
import SchemaGraph.Proofs.Outline.Places

/-!
# The Depth of an Outline

A bound on the depth cuts an outline off and changes nothing above the cut, since the bound is not
asked anywhere else.  An outline ends by itself as well: a field opens only if nothing above it
carries its handle, so a place is below at most as many fields as there are handles.

- `Arenas.filter_places`: the places of a smaller bound are those of a larger one that it admits
- `Cache.schemaIds`: the schema handles that occur in the fields of a cache
- `Cache.depth_le_of_shown`: how far down places are
- `Cache.outline_of_depth`: a bound truncates, and large enough bounds give one outline
-/

namespace SchemaGraph

/-! ## §1 Truncation -/

namespace Arenas

open OutlinePlace

variable {arenas : Arenas} {levels levels' m M : Nat} {enclosing fields : List Field}
  {p : OutlinePlace}

theorem suffix_of_mem_placesWithin (hp : p ∈ arenas.placesWithin levels enclosing fields) :
    enclosing <:+ p.enclosing := by
  induction levels generalizing enclosing fields with
  | zero =>
    obtain ⟨f, -, rfl⟩ := List.mem_map.1 hp
    exact List.suffix_rfl
  | succ levels ih =>
    obtain ⟨f, -, rfl | ⟨-, -, children, -, hp⟩⟩ := mem_placesWithin_succ.1 hp
    · exact List.suffix_rfl
    · exact (List.suffix_cons f enclosing).trans (ih hp)

/-- Of the places of many levels those within the first few are the places of a few levels. -/
theorem filter_placesWithin (arenas : Arenas) (hle : levels ≤ levels')
    (enclosing fields : List Field) :
    (arenas.placesWithin levels' enclosing fields).filter
        (fun p => p.depth ≤ enclosing.length + 1 + levels) =
      arenas.placesWithin levels enclosing fields := by
  -- By induction on the many levels: both sides lose one for each field that is opened.
  induction levels' generalizing levels enclosing fields with
  | zero =>
    obtain rfl := Nat.le_zero.1 hle
    refine List.filter_eq_self.2 fun p hp => ?_
    obtain ⟨f, -, rfl⟩ := List.mem_map.1 hp
    simp [depth]
  | succ levels' ih =>
    rw [placesWithin, List.filter_flatMap]
    cases levels with
    | zero =>
      -- Only the fields themselves are left: everything below them is further down.
      rw [placesWithin, List.map_eq_flatMap (l := fields)]
      refine congrArg (List.flatMap · fields) (funext fun f => ?_)
      rw [List.filter_cons_of_pos (by simp [depth])]
      refine congrArg (List.cons _) (List.filter_eq_nil_iff.2 fun p hp => ?_)
      split at hp
      · cases hp
      · split at hp
        next children hbelow =>
          have hdeeper : enclosing.length + 1 < p.depth :=
            Nat.succ_lt_succ (suffix_of_mem_placesWithin hp).length_le
          simpa using hdeeper
        next => cases hp
    | succ levels =>
      rw [placesWithin]
      refine congrArg (List.flatMap · fields) (funext fun f => ?_)
      rw [List.filter_cons_of_pos (by simp [depth])]
      refine congrArg (List.cons _) ?_
      split
      · rfl
      · cases arenas.below? f with
        | none => rfl
        | some children =>
          have hbelow := ih (Nat.le_of_succ_le_succ hle) (f :: enclosing) children
          rwa [List.length_cons, Nat.add_right_comm _ 1 levels] at hbelow

/-- **A smaller bound truncates**: the places it leaves are those that it admits. -/
theorem filter_places (arenas : Arenas) (hpos : 1 ≤ m) (hle : m ≤ M) (fields : List Field) :
    (arenas.places M fields).filter (fun p => p.depth ≤ m) = arenas.places m fields := by
  have h := arenas.filter_placesWithin (Nat.sub_le_sub_right hle 1) [] fields
  rwa [List.length_nil, Nat.zero_add, Nat.add_sub_cancel' hpos] at h

/-- Where no place is further down than a bound, larger bounds show nothing more. -/
theorem places_eq_of_depth_le (hpos : 1 ≤ m) (hle : m ≤ M)
    (hdepth : ∀ p ∈ arenas.places M fields, p.depth ≤ m) :
    arenas.places M fields = arenas.places m fields := by
  rw [← arenas.filter_places hpos hle]
  exact (List.filter_eq_self.2 fun p hp => decide_eq_true (hdepth p hp)).symm

end Arenas

/-! ## §2 Handles that occur -/

namespace Field

mutual

/-- The schema handles of the field and of all fields attached below it. -/
def schemaIds : Field → List Handle
  | ⟨_, _, _, _, _, schemaId, children, _, _, _⟩ =>
    schemaId ::
      match children with
      | none => []
      | some children => schemaIdsAll children

/-- The schema handles of a list of fields. -/
def schemaIdsAll : List Field → List Handle
  | [] => []
  | f :: fs => schemaIds f ++ schemaIdsAll fs

end

theorem schemaIdsAll_eq_flatMap (fs : List Field) : schemaIdsAll fs = fs.flatMap schemaIds := by
  induction fs with
  | nil => rfl
  | cons f fs ih => rw [schemaIdsAll, ih, List.flatMap_cons]

theorem schemaIds_eq (f : Field) :
    f.schemaIds = f.schemaId :: f.childList.flatMap schemaIds := by
  obtain ⟨name, declaredType, kind, enumValues, variantIds, schemaId, children, hint, l, m⟩ := f
  cases children with
  | none => rw [schemaIds]; rfl
  | some cs => rw [schemaIds, schemaIdsAll_eq_flatMap]; rfl

/-- The handles of a field tree occur everywhere in it. -/
theorem everywhere_schemaIds {ids : List Handle} (f : Field) (h : f.schemaIds ⊆ ids) :
    f.Everywhere (·.schemaId ∈ ids) := by
  induction f using inductionOn with
  | node f ih =>
    rw [schemaIds_eq, List.cons_subset] at h
    exact .node f h.1 fun c hc =>
      ih c hc fun i hi => h.2 (List.mem_flatMap.2 ⟨c, hc, hi⟩)

end Field

/-! ## §3 Outlines of a cache -/

namespace Cache

open OutlinePlace

variable {c : Cache} {typeName : String} {fields : List Field}

/-- The schema handles that occur in the fields of a cache, at any depth. -/
def schemaIds (c : Cache) : Finset Handle := (c.heldFields.flatMap Field.schemaIds).toFinset

theorem everywhere_mem_schemaIds : ∀ f ∈ c.heldFields, f.Everywhere (·.schemaId ∈ c.schemaIds) := by
  intro f hf
  refine (Field.everywhere_schemaIds f fun i hi => ?_).mono fun g hg => List.mem_toFinset.2 hg
  exact List.mem_flatMap.2 ⟨f, hf, hi⟩

/-- **Places are not far down**: each of the fields above a place brings a handle of its own. -/
theorem depth_le_of_shown {maxDepth : Nat} {p : OutlinePlace}
    (h : c.describe? typeName = some fields) (hp : Shown c.arenas maxDepth fields p) :
    p.depth ≤ c.schemaIds.card + 1 := by
  have hsub : p.path.toFinset ⊆ c.schemaIds := by
    intro i hi
    obtain ⟨f, hf, rfl⟩ := List.mem_map.1 (List.mem_toFinset.1 hi)
    exact (everywhere_of_shown h everywhere_mem_schemaIds hp).2 f hf
  calc p.depth = p.path.length + 1 := by rw [depth, path, List.length_map]
    _ = p.path.toFinset.card + 1 := by rw [List.toFinset_card_of_nodup hp.nodup_path]
    _ ≤ c.schemaIds.card + 1 := Nat.succ_le_succ (Finset.card_le_card hsub)

/-- **Depth only truncates an outline, and outlines end**: the lines that a bound leaves are those
of any larger bound that are not nested deeper.  With as many levels as there are handles, and one
more, nothing is cut off: no line is nested deeper, and all larger bounds give the same text. -/
theorem outline_of_depth (c : Cache) {typeName : String} {fields : List Field}
    (h : c.describe? typeName = some fields) :
    let lines := fun maxDepth => outlineLines c.arenas (maxDepth - 1) 1 [] fields
    (∀ maxDepth, c.outline? typeName maxDepth = some (typeName ++ "\n" ++
        String.join ((lines maxDepth).map (·.render c.arenas)))) ∧
      (∀ m M, 1 ≤ m → m ≤ M → lines m = (lines M).filter (·.depth ≤ m)) ∧
      (∀ M, ∀ line ∈ lines M, line.depth ≤ c.schemaIds.card + 1) ∧
      ∀ M, c.schemaIds.card + 1 ≤ M →
        c.outline? typeName M = c.outline? typeName (c.schemaIds.card + 1) := by
  intro lines
  -- The lines are those of the places, so everything is said of these.
  have hplaces : ∀ M, lines M = (c.arenas.places M fields).map OutlinePlace.line := fun M =>
    Arenas.outlineLines_eq_map c.arenas (M - 1) [] fields
  have hdepth : ∀ M, ∀ p ∈ c.arenas.places M fields, p.depth ≤ c.schemaIds.card + 1 :=
    fun M p hp => depth_le_of_shown h (Arenas.mem_places_iff.1 hp)
  refine ⟨fun M => ?_, fun m M hpos hle => ?_, fun M line hline => ?_, fun M hM => ?_⟩
  · rw [outline?, h]
    rfl
  · rw [hplaces, hplaces, List.filter_map, ← c.arenas.filter_places hpos hle]
    rfl
  · rw [hplaces] at hline
    obtain ⟨p, hp, rfl⟩ := List.mem_map.1 hline
    exact hdepth M p hp
  -- Both bounds reach the deepest place, so that the same places are listed.
  · rw [outline?_eq_places h, outline?_eq_places h,
      Arenas.places_eq_of_depth_le (Nat.succ_pos _) hM (hdepth M)]

theorem outline_of_depth_ring :
    ringCache.schemaIds.card = 2 ∧
      (∀ M, 3 ≤ M → ringCache.outline? "GraphDef" M = some ("GraphDef\n  -- root : Mod.Node\n" ++
        "    -- value : System.Single\n    -- next : Mod.Node (recursive)\n")) ∧
      ringCache.outline? "GraphDef" 1 = some "GraphDef\n  -- root : Mod.Node\n" := by
  have hcount : ringCache.schemaIds.card = 2 := by decide
  have hdescribe : ringCache.describe? "GraphDef" = some [.nested "root" "Mod.Node" 0] := by
    decide
  obtain ⟨htext, -, -, hstable⟩ := outline_of_depth ringCache hdescribe
  rw [hcount] at hstable
  exact ⟨hcount, fun M hM => (hstable M hM).trans (by decide),
    (htext 1).trans (by decide)⟩

end Cache

end SchemaGraph
