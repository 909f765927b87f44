import Mathlib.Data.List.Induction
import Mathlib.Data.List.TakeWhile
import SchemaGraph.Text.Segment

/-!
# Pieces of a Text

What is between the separators of a text: cutting a joined text gives the parts again, the last
piece is what comes after the last separator, and separators at the end only add empty pieces.
-/

namespace SchemaGraph.Text

/-! ## §1 Cutting -/

theorem pieces_ne_nil (sep : Char) (cs : List Char) : pieces sep cs ≠ [] := by
  cases cs with
  | nil => exact List.cons_ne_nil _ _
  | cons c cs =>
    rw [pieces]
    split
    · exact List.cons_ne_nil _ _
    · split <;> exact List.cons_ne_nil _ _

theorem pieces_of_notMem {sep : Char} {cs : List Char} (h : sep ∉ cs) : pieces sep cs = [cs] := by
  induction cs with
  | nil => rfl
  | cons c cs ih =>
    have hc : ¬ c = sep := fun hc => h (hc ▸ List.mem_cons_self)
    rw [pieces, if_neg hc, ih fun hmem => h (List.mem_cons_of_mem _ hmem)]

/-- Cutting at a separator in between. -/
theorem pieces_append_sep (sep : Char) (front rest : List Char) :
    pieces sep (front ++ sep :: rest) = pieces sep front ++ pieces sep rest := by
  induction front with
  | nil => simp [pieces]
  | cons c front ih =>
    rw [List.cons_append, pieces, pieces, ih]
    split
    · rfl
    · cases hpieces : pieces sep front with
      | nil => exact absurd hpieces (pieces_ne_nil sep front)
      | cons piece rest => rfl

theorem notMem_of_mem_pieces {sep : Char} {cs piece : List Char} (h : piece ∈ pieces sep cs) :
    sep ∉ piece := by
  induction cs generalizing piece with
  | nil =>
    obtain rfl := List.mem_singleton.1 h
    exact List.not_mem_nil
  | cons c cs ih =>
    rw [pieces] at h
    split at h
    · rcases List.mem_cons.1 h with rfl | h
      · exact List.not_mem_nil
      · exact ih h
    -- `c` goes to the front of the first piece, and it is no separator.
    next hc =>
      cases hpieces : pieces sep cs with
      | nil => exact absurd hpieces (pieces_ne_nil sep cs)
      | cons first rest =>
        rw [hpieces] at h ih
        rcases List.mem_cons.1 h with rfl | h
        · intro hmem
          rcases List.mem_cons.1 hmem with hsep | hmem
          · exact hc hsep.symm
          · exact ih List.mem_cons_self hmem
        · exact ih (List.mem_cons_of_mem _ h)

/-- Cutting a joined text gives the parts again. -/
theorem splitAt_joinWith {parts : List String} (hne : parts ≠ [])
    (hparts : ∀ part ∈ parts, '/' ∉ part.toList) : splitAt '/' (joinWith "/" parts) = parts := by
  induction parts with
  | nil => exact absurd rfl hne
  | cons part parts ih =>
    have hpart := hparts part List.mem_cons_self
    cases parts with
    | nil =>
      rw [joinWith, String.intercalate_singleton, splitAt, pieces_of_notMem hpart]
      simp
    | cons next parts =>
      have hrest := ih (List.cons_ne_nil _ _) fun p hp => hparts p (List.mem_cons_of_mem _ hp)
      have hslash : ("/" : String).toList = ['/'] := rfl
      -- The first part has no slash, so it ends where the slash is that was put behind it.
      rw [splitAt, joinWith] at hrest
      rw [joinWith, String.intercalate_cons_cons, splitAt, String.toList_append,
        String.toList_append, hslash, List.append_assoc, List.singleton_append, pieces_append_sep,
        pieces_of_notMem hpart, List.map_append, hrest]
      simp

/-! ## §2 The last piece -/

/-- The last piece is what comes after the last separator. -/
theorem getLast?_pieces (sep : Char) (cs : List Char) :
    (pieces sep cs).getLast? = some (cs.reverse.takeWhile (· != sep)).reverse := by
  -- Seen from the end, everything up to the first separator belongs to the last piece.
  by_cases hsep : sep ∈ cs
  · obtain ⟨tail, front, hcs, htail⟩ := List.eq_append_cons_of_mem (List.mem_reverse.2 hsep)
    have htake : ∀ c ∈ tail, (c != sep) = true :=
      fun c hc => bne_iff_ne.2 fun h => htail (h ▸ hc)
    have hlast : pieces sep tail.reverse = [tail.reverse] := pieces_of_notMem (by simpa using htail)
    rw [hcs, List.takeWhile_append_of_pos htake, List.reverse_eq_iff.1 hcs, List.reverse_append,
      List.reverse_cons, List.append_assoc, List.singleton_append, pieces_append_sep, hlast]
    simp
  · have htake : ∀ c ∈ cs.reverse, (c != sep) = true :=
      fun c hc => bne_iff_ne.2 fun h => hsep (h ▸ List.mem_reverse.1 hc)
    rw [pieces_of_notMem hsep, List.takeWhile_eq_self_iff.2 htake, List.reverse_reverse]
    rfl

theorem getLast?_splitAt (sep : Char) (s : String) :
    (splitAt sep s).getLast? = some (afterLast sep s) := by
  rw [splitAt, List.getLast?_map, getLast?_pieces]
  rfl

/-- The last piece is empty after a separator, and only there. -/
theorem getLast?_pieces_eq_nil {sep : Char} {cs : List Char} (hne : cs ≠ []) :
    (pieces sep cs).getLast? = some [] ↔ cs.getLast? = some sep := by
  cases cs using List.reverseRecOn with
  | nil => exact absurd rfl hne
  | append_singleton front c => by_cases hc : c = sep <;> simp [getLast?_pieces, hc]

/-- Separators at the end only add empty pieces. -/
theorem filter_pieces_dropEnd (sep : Char) (cs : List Char) :
    (pieces sep (cs.reverse.dropWhile (· = sep)).reverse).filter (· ≠ []) =
      (pieces sep cs).filter (· ≠ []) := by
  induction cs using List.reverseRecOn with
  | nil => rfl
  | append_singleton cs c ih =>
    by_cases hc : c = sep
    · have hdrop : ((cs ++ [c]).reverse.dropWhile (· = sep)) = cs.reverse.dropWhile (· = sep) := by
        simp [hc]
      rw [hdrop, ih, hc, pieces_append_sep]
      simp [pieces]
    · simp [hc]

theorem endsWith_slash_iff {s : String} (hne : s ≠ "") :
    endsWith "/" s = true ↔ (splitAt '/' s).getLast? = some "" := by
  have hchars : ("/" : String).toList = ['/'] := rfl
  have hlist : s.toList ≠ [] := by simpa using hne
  have hends : endsWith "/" s = true ↔ s.toList.getLast? = some '/' := by
    rw [endsWith, hchars, List.isSuffixOf_iff_suffix, List.getLast?_eq_some_iff]
    exact ⟨fun ⟨front, h⟩ => ⟨front, h.symm⟩, fun ⟨front, h⟩ => ⟨front, h.symm⟩⟩
  rw [hends, ← getLast?_pieces_eq_nil hlist, splitAt, List.getLast?_map]
  cases (pieces '/' s.toList).getLast? with
  | none => simp
  | some piece => simp

/-- What comes before a separator has no other characters than the text. -/
theorem mem_of_beforeLast? {sep : Char} {text front : String}
    (h : beforeLast? sep text = some front) {c : Char} (hc : c ∈ front.toList) :
    c ∈ text.toList := by
  unfold beforeLast? at h
  split at h
  · cases h
  next first rest hdrop =>
    obtain rfl := Option.some.inj h
    have hrest : c ∈ text.toList.reverse.dropWhile (· != sep) := by
      rw [hdrop]
      exact List.mem_cons_of_mem _ (by simpa using hc)
    exact List.mem_reverse.1 (List.dropWhile_subset _ hrest)

/-! ## §3 Trimming -/

theorem trim_eq_empty_iff {s : String} : trim s = "" ↔ isBlankText s = true := by
  have hempty : trim s = "" ↔ trimChars s.toList = [] := by
    rw [trim, String.ofList_eq_empty_iff]
  rw [hempty, trimChars, List.reverse_eq_nil_iff, List.dropWhile_eq_nil_iff, isBlankText,
    List.all_eq_true]
  constructor
  -- What is not taken off the front is either blank or still there, and nothing is.
  · intro h c hc
    rw [← List.takeWhile_append_dropWhile (p := isBlank) (l := s.toList), List.mem_append] at hc
    obtain hc | hc := hc
    · exact List.mem_takeWhile_imp hc
    · exact h c (List.mem_reverse.2 hc)
  · intro h c hc
    exact h c (List.dropWhile_subset _ (List.mem_reverse.1 hc))

end SchemaGraph.Text
