import Mathlib.Data.List.Forall2
import SchemaGraph.Outline

/-!
# Outlines do not Show Handles

Two pairs of arenas may hold the same graph under different handles.  An outline prints names and
descends by handle, and the recursion marks compare handles with each other, never with a number.
So it comes out the same wherever one graph simulates the other step by step, cycles included.

- `Arenas.Bisimulation`: fields of the two sides that look alike, now and further down
- `Arenas.Bisimulation.contains_eq`: an enclosing handle is found on both sides or on neither
- `Arenas.Bisimulation.forall₂_outlineLines`: the lines of the two sides are of matched fields
- `Arenas.Bisimulation.renderOutline_eq`: such fields have the same outline at every depth
-/

namespace SchemaGraph

namespace Arenas

variable {a b : Arenas} {R : Handle → Handle → Prop} {B : Field → Field → Prop}

/-! ## §1 Bisimulations -/

/-- **One graph under two numberings**: `R` matches the handles of the two sides one to one, and
fields matched by `B` look alike, have matched handles, and have matched fields below them. -/
structure Bisimulation (a b : Arenas) (R : Handle → Handle → Prop) (B : Field → Field → Prop) :
    Prop where
  unique : ∀ {h h' k k'}, R h k → R h' k' → (h = h' ↔ k = k')
  handles : ∀ {f g}, B f g → R f.schemaId g.schemaId
  name : ∀ {f g}, B f g → f.name = g.name
  declaredType : ∀ {f g}, B f g → f.declaredType = g.declaredType
  kind : ∀ {f g}, B f g → f.kind = g.kind
  enumValues : ∀ {f g}, B f g → f.enumValues = g.enumValues
  variantNames : ∀ {f g}, B f g → a.variantNames f = b.variantNames g
  below : ∀ {f g}, B f g → Option.Rel (List.Forall₂ B) (a.below? f) (b.below? g)

namespace Bisimulation

/-! ## §2 Lines -/

theorem contains_eq (hB : Bisimulation a b R B) {path path' : List Handle} {h k : Handle}
    (hpath : List.Forall₂ R path path') (hhk : R h k) : path.contains h = path'.contains k := by
  induction hpath with
  | nil => rfl
  | @cons x y xs ys hxy _ ih =>
    have heq : (h == x) = (k == y) := by
      rw [Bool.eq_iff_iff, beq_iff_eq, beq_iff_eq]
      exact hB.unique hhk hxy
    rw [List.contains_cons, List.contains_cons, heq, ih]

/-- Lines of matched fields at the same depth, both marked or neither. -/
structure SameLine (B : Field → Field → Prop) (line line' : OutlineLine) : Prop where
  depth : line.depth = line'.depth
  field : B line.field line'.field
  recursive : line.recursive = line'.recursive

/-- **Lines**: both sides descend at the same fields.  The fields that are descended into bring
matched handles to the path, so the marks further down agree as well. -/
theorem forall₂_outlineLines (hB : Bisimulation a b R B) {fields fields' : List Field}
    (hfields : List.Forall₂ B fields fields') {path path' : List Handle}
    (hpath : List.Forall₂ R path path') (levels depth : Nat) :
    List.Forall₂ (SameLine B) (outlineLines a levels depth path fields)
      (outlineLines b levels depth path' fields') := by
  -- The two lines have the same depth, and are marked alike as their paths are matched.
  have hline : ∀ f g, B f g → ∀ depth {path path' : List Handle}, List.Forall₂ R path path' →
      SameLine B ⟨depth, f, path.contains f.schemaId⟩ ⟨depth, g, path'.contains g.schemaId⟩ :=
    fun f g hfg depth _ _ hpath => ⟨rfl, hfg, hB.contains_eq hpath (hB.handles hfg)⟩
  induction levels generalizing depth path path' fields fields' with
  | zero =>
    rw [outlineLines, outlineLines]
    refine List.forall₂_map_left_iff.2 (List.forall₂_map_right_iff.2 ?_)
    exact hfields.imp fun f g hfg => hline f g hfg depth hpath
  | succ levels ih =>
    rw [outlineLines, outlineLines]
    refine List.rel_flatMap hfields fun f g hfg => .cons (hline f g hfg depth hpath) ?_
    rw [hB.contains_eq hpath (hB.handles hfg), hB.kind hfg]
    split
    · exact .nil
    · -- The two sides descend into matched fields, or neither does.
      have hbelow := hB.below hfg
      revert hbelow
      cases a.below? f with
      | none =>
        cases b.below? g with
        | none => exact fun _ => .nil
        | some children' => exact fun hbelow => by cases hbelow
      | some children =>
        cases b.below? g with
        | none => exact fun hbelow => by cases hbelow
        | some children' =>
          rw [Option.rel_some_some]
          exact fun hbelow => ih hbelow (.cons (hB.handles hfg) hpath) (depth + 1)

/-- Matched lines are written alike. -/
theorem render_eq (hB : Bisimulation a b R B) {line line' : OutlineLine}
    (h : SameLine B line line') : line.render a = line'.render b := by
  have hremark : OutlineLine.remark a line.field = OutlineLine.remark b line'.field := by
    unfold OutlineLine.remark
    rw [hB.kind h.field, hB.enumValues h.field, hB.variantNames h.field]
  rw [OutlineLine.render, OutlineLine.render, hremark, h.depth, h.recursive, hB.name h.field,
    hB.declaredType h.field]

/-! ## §3 Outlines -/

/-- **Outlines do not show handles**: matched fields have the same outline. -/
theorem renderOutline_eq (hB : Bisimulation a b R B) {fields fields' : List Field}
    (hfields : List.Forall₂ B fields fields') (title : String) (maxDepth : Nat) :
    renderOutline a title fields maxDepth = renderOutline b title fields' maxDepth := by
  have hlines := hB.forall₂_outlineLines hfields .nil (maxDepth - 1) 1
  have htexts : List.Forall₂ (· = ·)
      ((outlineLines a (maxDepth - 1) 1 [] fields).map (OutlineLine.render a))
      ((outlineLines b (maxDepth - 1) 1 [] fields').map (OutlineLine.render b)) :=
    List.forall₂_map_left_iff.2
      (List.forall₂_map_right_iff.2 (hlines.imp fun _ _ => hB.render_eq))
  rw [List.forall₂_eq_eq_eq] at htexts
  rw [renderOutline, renderOutline, htexts]

end Bisimulation

end Arenas

end SchemaGraph
