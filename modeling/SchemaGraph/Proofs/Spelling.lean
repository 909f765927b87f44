import SchemaGraph.Proofs.Text.Segment
import SchemaGraph.Query

/-!
# Spellings of a Path

Slashes at both ends, doubled slashes, blank pieces and blanks around a piece are a matter of
spelling: two paths with the same segments name the same node.  Only whether a path ends in an item
is read off its text once more, and that reading passes slashes at the end, but no blank piece.  It
decides what is offered below a list of which no named instances are known.

- `Cache.endsBlank`: behind its last segment the path goes on with a blank piece
- `Cache.endsInItem_iff`: what the second reading finds, said of segments
- `Cache.AsksForItems`: the paths below which the second reading is asked for
- `Cache.answers_of_spelling`: which answers depend on the spelling, and when
-/

namespace SchemaGraph

namespace Cache

/-! ## §1 The end of a path -/

/-- The last piece of a path that is not empty. -/
def lastPiece? (path : String) : Option String :=
  ((Text.splitAt '/' path).filter (· ≠ "")).getLast?

/-- The last piece of the path that is not empty is blank. -/
def endsBlank (path : String) : Bool := (lastPiece? path).any Text.isBlankText

/-- The path without the slashes at its end. -/
def withoutEnd (path : String) : String :=
  String.ofList (path.toList.reverse.dropWhile (· = '/')).reverse

section Ends

variable {path : String}

theorem getLast?_filter {α : Type} {p : α → Bool} {xs : List α} {x : α}
    (hlast : xs.getLast? = some x) (hx : p x = true) : (xs.filter p).getLast? = some x := by
  obtain ⟨front, rfl⟩ := List.getLast?_eq_some_iff.1 hlast
  rw [List.filter_append, List.filter_cons_of_pos hx, List.filter_nil, List.getLast?_concat]

theorem lastPiece?_withoutEnd (path : String) : lastPiece? (withoutEnd path) = lastPiece? path := by
  have hpieces : ∀ s : String, (Text.splitAt '/' s).filter (· ≠ "") =
      ((Text.pieces '/' s.toList).filter (· ≠ [])).map String.ofList := by
    intro s
    rw [Text.splitAt, List.filter_map]
    refine congrArg _ (List.filter_congr fun piece _ => ?_)
    simp
  rw [lastPiece?, lastPiece?, hpieces, hpieces, withoutEnd, String.toList_ofList,
    Text.filter_pieces_dropEnd]

/-- Without the slashes at its end, a path ends in a piece that is not empty. -/
theorem withoutEnd_eq_empty (h : Text.afterLast '/' (withoutEnd path) = "") :
    withoutEnd path = "" := by
  have hhead := List.head?_dropWhile_not (· = '/') path.toList.reverse
  rw [withoutEnd, Text.afterLast, String.toList_ofList, List.reverse_reverse,
    String.ofList_eq_empty_iff, List.reverse_eq_nil_iff] at h
  rw [withoutEnd, String.ofList_eq_empty_iff, List.reverse_eq_nil_iff]
  cases hchars : path.toList.reverse.dropWhile (· = '/') with
  | nil => rfl
  | cons c cs =>
    rw [hchars] at h hhead
    have hc : c ≠ '/' := by simpa using hhead
    simp [hc] at h

theorem lastPiece?_eq (path : String) :
    lastPiece? path =
      if Text.afterLast '/' (withoutEnd path) = "" then none
      else some (Text.afterLast '/' (withoutEnd path)) := by
  rw [← lastPiece?_withoutEnd]
  split
  next hempty => rw [withoutEnd_eq_empty hempty]; decide
  next hne => exact getLast?_filter (Text.getLast?_splitAt _ _) (decide_eq_true hne)

theorem endsInItem_iff_lastPiece : endsInItem path = true ↔
    ∃ piece ∈ lastPiece? path, Text.trim piece = itemTag := by
  have hends : endsInItem path = true ↔
      Text.trim (Text.afterLast '/' (withoutEnd path)) = itemTag := by
    rw [endsInItem, decide_eq_true_eq, withoutEnd]
  rw [hends, lastPiece?_eq]
  split
  next hempty =>
    rw [hempty]
    exact iff_of_false (by decide) (by simp)
  next => simp

/-- The segments are the pieces that are not blank, trimmed. -/
theorem pathSegments_eq (path : String) :
    pathSegments path =
      (((Text.splitAt '/' path).filter (· ≠ "")).filter fun piece =>
        !Text.isBlankText piece).map Text.trim := by
  rw [pathSegments, List.filter_map, List.filter_filter]
  refine congrArg _ (List.filter_congr fun piece _ => ?_)
  have hempty : Text.isBlankText "" = true := rfl
  -- A piece that is trimmed to nothing is blank, and no other one is.
  cases hblank : Text.isBlankText piece with
  | true => simpa using Text.trim_eq_empty_iff.2 hblank
  | false =>
    have htrim : Text.trim piece ≠ "" := fun h => by simp [Text.trim_eq_empty_iff.1 h] at hblank
    have hne : piece ≠ "" := fun h => by simp [h, hempty] at hblank
    simp [htrim, hne]

/-- **The end of a path**: the second reading finds an item exactly if the last segment is one and
no blank piece follows it. -/
theorem endsInItem_iff : endsInItem path = true ↔
    (pathSegments path).getLast? = some itemTag ∧ endsBlank path = false := by
  rw [endsInItem_iff_lastPiece, endsBlank, pathSegments_eq, List.getLast?_map]
  cases hlast : lastPiece? path with
  | none =>
    -- All pieces are empty.
    rw [List.getLast?_eq_none_iff.1 hlast]
    simp
  | some piece =>
    cases hblank : Text.isBlankText piece with
    | true =>
      have htrim : Text.trim piece = "" := Text.trim_eq_empty_iff.2 hblank
      simp [htrim, hblank, itemTag]
    | false =>
      rw [getLast?_filter hlast (by rw [hblank]; rfl)]
      simp [hblank]

/-- Two spellings are read alike unless a blank piece follows the item tag in one of them only. -/
theorem endsInItem_eq_iff {path' : String} (h : pathSegments path = pathSegments path') :
    endsInItem path = endsInItem path' ↔
      endsBlank path = endsBlank path' ∨ (pathSegments path).getLast? ≠ some itemTag := by
  rw [Bool.eq_iff_iff, endsInItem_iff, endsInItem_iff, ← h]
  cases endsBlank path <;> cases endsBlank path' <;> simp

end Ends

/-! ## §2 What depends on the spelling -/

/-- The path leads to a list other than a polymorphic one, of whose items no named instances are
known. -/
def ListsItems (c : Cache) (path : String) : Prop :=
  ∃ f item, c.deepestField? path = some f ∧ f.kind ≠ .polymorphicList ∧
    f.listItemType? = some item ∧ c.enumeratedValues? (c.castTarget item) = none

/-- The path leads through an item tag at its end to such a list, and the fields of an item are
offered as something else than an item. -/
structure AsksForItems (c : Cache) (path : String) : Prop where
  item : (pathSegments path).getLast? = some itemTag
  list : c.ListsItems path
  fields : (c.childrenAt path).2.map (·.name) ≠ [itemTag]

section Answers

variable {c : Cache} {path path' : String}

theorem deepestField?_congr (h : pathSegments path = pathSegments path') :
    c.deepestField? path = c.deepestField? path' := by
  rw [deepestField?, deepestField?, segments, segments, h]

theorem childrenAt_congr (h : pathSegments path = pathSegments path') :
    c.childrenAt path = c.childrenAt path' := by
  rw [childrenAt, childrenAt, segments, segments, h]

theorem childrenAt_fst (c : Cache) (path : String) :
    (c.childrenAt path).1 = c.deepestField? path := by
  rw [childrenAt, deepestField?]
  split
  next tag hsegments =>
    -- The definition itself is no field.
    rw [hsegments, deepestIn]
    cases c.lastDefinition? tag <;> rfl
  next segments hsegments =>
    cases c.deepestIn (c.segments path) <;> rfl

/-- Below such a list the end of the path decides. -/
theorem offersAt_of_listsItems (h : c.ListsItems path) :
    c.offersAt path =
      if endsInItem path then (c.childrenAt path).2.map (·.name) else [itemTag] := by
  obtain ⟨f, item, hfield, hkind, hitem, hvalues⟩ := h
  rw [← childrenAt_fst] at hfield
  simp only [offersAt, hfield, hkind, if_false, hitem, hvalues]

/-- Below everything else the end of the path does not matter. -/
theorem offersAt_congr_of_not_listsItems (h : pathSegments path = pathSegments path')
    (hlist : ¬ c.ListsItems path) : c.offersAt path = c.offersAt path' := by
  -- Each kind of field is asked for by its kind, and items only where the kind lists them.
  cases hfield : (c.childrenAt path).1 with
  | none => simp only [offersAt, ← childrenAt_congr h, hfield]
  | some f =>
    by_cases hkind : f.kind = .polymorphicList
    · simp only [offersAt, ← childrenAt_congr h, hfield, hkind, if_true]
    · cases hitem : f.listItemType? with
      | none => simp only [offersAt, ← childrenAt_congr h, hfield, hkind, if_false, hitem]
      | some item =>
        cases hvalues : c.enumeratedValues? (c.castTarget item) with
        | some values =>
          simp only [offersAt, ← childrenAt_congr h, hfield, hkind, if_false, hitem, hvalues]
        | none =>
          rw [childrenAt_fst] at hfield
          exact absurd ⟨f, item, hfield, hkind, hitem, hvalues⟩ hlist

/-- **Spellings of a path**: two paths with the same segments lead to the same field, with the same
fields below.  The same is offered below both exactly if both go on with a blank piece behind their
last segment or neither does, or if they do not ask for the fields of a list item. -/
theorem answers_of_spelling (c : Cache) {path path' : String}
    (h : pathSegments path = pathSegments path') :
    c.deepestField? path = c.deepestField? path' ∧ c.childrenAt path = c.childrenAt path' ∧
      (c.offersAt path = c.offersAt path' ↔
        endsBlank path = endsBlank path' ∨ ¬ c.AsksForItems path) := by
  refine ⟨deepestField?_congr h, childrenAt_congr h, ?_⟩
  by_cases hlist : c.ListsItems path
  -- The two spellings are about the same list; what is offered is told by their ends.
  · have hlist' : c.ListsItems path' := by
      rwa [ListsItems, ← deepestField?_congr h]
    rw [offersAt_of_listsItems hlist, offersAt_of_listsItems hlist', ← childrenAt_congr h]
    have hchoice : ∀ (e e' : Bool) (names items : List String),
        (if e then names else items) = (if e' then names else items) ↔ e = e' ∨ names = items := by
      intro e e' names items
      cases e <;> cases e' <;> simp [eq_comm]
    rw [hchoice, endsInItem_eq_iff h, or_assoc]
    refine or_congr_right ⟨?_, fun hasks => ?_⟩
    · rintro (hitem | hfields) hasks
      · exact hitem hasks.item
      · exact hasks.fields hfields
    · by_contra hboth
      obtain ⟨hitem, hfields⟩ := not_or.1 hboth
      exact hasks ⟨not_not.1 hitem, hlist, hfields⟩
  · exact iff_of_true (offersAt_congr_of_not_listsItems h hlist)
      (.inr fun hasks => hlist hasks.list)

end Answers

/-- Things with a list of stats, of which no instances are known. -/
def statCache : Cache where
  definitions :=
    [⟨"ThingDef", "ThingDef", "Def", false, false, "Verse.ThingDef",
      [.list "statBases" "List<RimWorld.StatModifier>" 0]⟩]
  catalog := .empty
  schemas :=
    [⟨"RimWorld.StatModifier",
      [.nested "stat" "RimWorld.StatDef" noHandle, .scalar "value" "System.Single"]⟩]
  variants := []
  castTable := .empty

theorem answers_of_spelling_stats :
    pathSegments "ThingDef/statBases/li" = pathSegments " / ThingDef// statBases/ /li //" ∧
      statCache.offersAt " / ThingDef// statBases/ /li //" = ["stat", "value"] := by
  have hsegments : pathSegments "ThingDef/statBases/li" =
      pathSegments " / ThingDef// statBases/ /li //" := by decide +kernel
  have hends : endsBlank "ThingDef/statBases/li" = endsBlank " / ThingDef// statBases/ /li //" := by
    decide +kernel
  obtain ⟨-, -, hoffers⟩ := answers_of_spelling statCache hsegments
  exact ⟨hsegments, (hoffers.2 (.inl hends)).symm.trans (by decide)⟩

/-- A blank behind the last slash: the path has the same segments, and is not taken to end in an
item. -/
theorem offersAt_ne_of_blank_end :
    pathSegments "ThingDef/statBases/li" = pathSegments "ThingDef/statBases/li/ " ∧
      statCache.offersAt "ThingDef/statBases/li" = ["stat", "value"] ∧
      statCache.offersAt "ThingDef/statBases/li/ " = ["li"] := by decide +kernel

end Cache

end SchemaGraph
