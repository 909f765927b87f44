import Mathlib.Data.List.Induction
import SchemaGraph.SortedMap

/-!
# Look-ups in Sorted Maps

A sorted map is determined by its look-ups, so equalities of maps are proved key by key.

- `SortedMap.ext_get?`: maps that answer every look-up alike are equal
- `SortedMap.get?_insert`: what a look-up finds after an insertion
- `SortedMap.get?_ofList_iff`: what it finds in the map of a list
- `SortedMap.get?_foldl_insertWith`: what it finds after one map was combined into another
-/

namespace SchemaGraph

namespace SortedMap

variable {α : Type}

/-! ## §1 Entries -/

theorem find_eq_none {entries : List (String × α)} {key : String}
    (h : ∀ e ∈ entries, e.1 ≠ key) : find entries key = none := by
  induction entries with
  | nil => rfl
  | cons head rest ih =>
    obtain ⟨k, v⟩ := head
    have hk : k ≠ key := h (k, v) List.mem_cons_self
    rw [find, if_neg hk]
    exact ih fun e he => h e (List.mem_cons_of_mem _ he)

theorem find_place (key : String) (value : α) (entries : List (String × α)) (k : String) :
    find (place key value entries) k = if key = k then some value else find entries k := by
  induction entries with
  | nil => rfl
  | cons head rest ih =>
    obtain ⟨k', v⟩ := head
    rw [place]
    split
    · rfl
    · split
      -- The entry replaces the one with its key.
      next heq =>
        subst heq
        simp only [find]
        split <;> rfl
      next hne =>
        -- The entry goes further behind, where it does not hide this one.
        rw [find, ih, find]
        by_cases hk : k' = k
        · have hkey : key ≠ k := fun h => hne (h.trans hk.symm)
          rw [if_pos hk, if_pos hk, if_neg hkey]
        · rw [if_neg hk, if_neg hk]

/-- A key below all others is not found among them. -/
private theorem find_eq_none_of_lt {entries : List (String × α)} {key : String}
    (h : ∀ e ∈ entries, key < e.1) : find entries key = none :=
  find_eq_none fun e he heq => String.lt_irrefl key (heq ▸ h e he)

/-- Sorted entries are determined by what is found in them. -/
theorem eq_of_find_eq {xs ys : List (String × α)} (hxs : xs.Pairwise (fun a b => a.1 < b.1))
    (hys : ys.Pairwise (fun a b => a.1 < b.1)) (h : ∀ key, find xs key = find ys key) :
    xs = ys := by
  induction xs generalizing ys with
  | nil =>
    cases ys with
    | nil => rfl
    | cons y ys =>
      have hy := h y.1
      simp [find] at hy
  | cons x xs ih =>
    obtain ⟨k, v⟩ := x
    obtain ⟨hk, hxs'⟩ := List.pairwise_cons.1 hxs
    cases ys with
    | nil =>
      have hx := h k
      simp [find] at hx
    | cons y ys =>
      obtain ⟨l, w⟩ := y
      obtain ⟨hl, hys'⟩ := List.pairwise_cons.1 hys
      -- The smallest keys are the same: each of them is found on the other side as well.
      have hkl : k = l := by
        refine String.le_antisymm (String.not_lt.1 fun hlt => ?_) (String.not_lt.1 fun hlt => ?_)
        · have hnone : find xs l = none :=
            find_eq_none_of_lt fun e he => String.lt_trans hlt (hk e he)
          have hne : k ≠ l := fun heq => String.lt_irrefl l (heq ▸ hlt)
          have := h l
          rw [find, if_neg hne, hnone, find, if_pos rfl] at this
          cases this
        · have hnone : find ys k = none :=
            find_eq_none_of_lt fun e he => String.lt_trans hlt (hl e he)
          have hne : l ≠ k := fun heq => String.lt_irrefl k (heq ▸ hlt)
          have := h k
          rw [find, if_pos rfl, find, if_neg hne, hnone] at this
          cases this
      subst hkl
      have hvw : v = w := by simpa [find] using h k
      subst hvw
      have hrest : ∀ key, find xs key = find ys key := by
        intro key
        by_cases hkey : k = key
        · subst hkey
          rw [find_eq_none_of_lt hk, find_eq_none_of_lt hl]
        · simpa [find, hkey] using h key
      rw [ih hxs' hys' hrest]

/-! ## §2 Maps -/

/-- **Extensionality**: maps that answer every look-up alike are equal. -/
theorem ext_get? {m m' : SortedMap α} (h : ∀ key, m.get? key = m'.get? key) : m = m' := by
  obtain ⟨entries, sorted⟩ := m
  obtain ⟨entries', sorted'⟩ := m'
  have heq : entries = entries' := eq_of_find_eq sorted sorted' h
  subst heq
  rfl

@[simp] theorem get?_empty (key : String) : (empty : SortedMap α).get? key = none := rfl

theorem get?_insert (m : SortedMap α) (key : String) (value : α) (k : String) :
    (m.insert key value).get? k = if key = k then some value else m.get? k :=
  find_place key value m.entries k

theorem ofList_concat (entries : List (String × α)) (e : String × α) :
    ofList (entries ++ [e]) = (ofList entries).insert e.1 e.2 := by
  rw [ofList, List.foldl_append]
  rfl

/-- **The map of a list**: where the entries of a key have the same value, a look-up finds exactly
the entries of the list. -/
theorem get?_ofList_iff {entries : List (String × α)} {key : String} {value : α}
    (hsame : ∀ e ∈ entries, ∀ e' ∈ entries, e.1 = e'.1 → e.2 = e'.2) :
    (ofList entries).get? key = some value ↔ (key, value) ∈ entries := by
  induction entries using List.reverseRecOn with
  | nil => simp [ofList]
  | append_singleton entries e ih =>
    obtain ⟨k, v⟩ := e
    have hbefore := ih fun a ha b hb =>
      hsame a (List.mem_append_left _ ha) b (List.mem_append_left _ hb)
    have hmem : ∀ a, a ∈ entries ++ [(k, v)] ↔ a ∈ entries ∨ a = (k, v) := fun a => by simp
    rw [ofList_concat, get?_insert, hmem]
    by_cases hk : k = key
    · -- An earlier entry of the key says the same as the last one.
      subst hk
      rw [if_pos rfl, Option.some.injEq]
      constructor
      · rintro rfl
        exact .inr rfl
      · rintro (hentry | heq)
        · exact hsame (k, v) ((hmem _).2 (.inr rfl)) (k, value) ((hmem _).2 (.inl hentry)) rfl
        · exact (Prod.mk.inj heq).2.symm
    · rw [if_neg hk, hbefore]
      exact (or_iff_left fun heq => hk (Prod.mk.inj heq).1.symm).symm

/-! ## §3 Combining maps -/

/-- Inserts an entry whose value may depend on the one that is replaced. -/
def insertWith (combine : Option α → α → α) (m : SortedMap α) (e : String × α) : SortedMap α :=
  m.insert e.1 (combine (m.get? e.1) e.2)

private theorem get?_foldl_entries (combine : Option α → α → α) (m : SortedMap α)
    {entries : List (String × α)} (hsorted : entries.Pairwise (fun a b => a.1 < b.1))
    (key : String) :
    (entries.foldl (insertWith combine) m).get? key =
      match find entries key with
      | none => m.get? key
      | some v => some (combine (m.get? key) v) := by
  induction entries generalizing m with
  | nil => rfl
  | cons head rest ih =>
    obtain ⟨k, v⟩ := head
    obtain ⟨hk, hrest⟩ := List.pairwise_cons.1 hsorted
    rw [List.foldl_cons, ih _ hrest, insertWith, get?_insert, find]
    by_cases hkey : k = key
    · -- The key is met once: the later entries have larger ones.
      subst hkey
      rw [find_eq_none_of_lt hk, if_pos rfl, if_pos rfl]
    · rw [if_neg hkey, if_neg hkey]

/-- **Combining one map into another**: a key of the second has the combined value, any other key
keeps its value. -/
theorem get?_foldl_insertWith (combine : Option α → α → α) (m m' : SortedMap α) (key : String) :
    (m'.entries.foldl (insertWith combine) m).get? key =
      match m'.get? key with
      | none => m.get? key
      | some v => some (combine (m.get? key) v) :=
  get?_foldl_entries combine m m'.sorted key

/-- The map of the entries of a map is that map. -/
theorem ofList_entries (m : SortedMap α) : ofList m.entries = m := by
  refine ext_get? fun key => ?_
  have hinsert : ofList m.entries = m.entries.foldl (insertWith fun _ v => v) .empty := rfl
  rw [hinsert, get?_foldl_insertWith]
  cases m.get? key <;> rfl

end SortedMap

end SchemaGraph
