import Mathlib.Data.List.Basic
import Mathlib.Data.List.Induction
import SchemaGraph.Merge.Plan

/-!
# The Algebra of Interning

What `newcomers` keeps, and where `placement` puts things, as laws about keys:

- `newcomers_append`: interning two lists is interning the first, then the second
- `newcomers_newcomers`: interning by a coarser key absorbs an earlier interning by a finer one
- `pairwise_distinct`: entries without repetition, in the order of their first appearance
- `mem_keysWith`: the combined arena has exactly the keys of both sides
- `Regrouping.newcomers_combined`: three arenas may be combined from either side
- `HandleMap.apply_placement`: a handle is sent to the first entry with its key
-/

namespace SchemaGraph

variable {α κ κ' : Type} [DecidableEq κ] [DecidableEq κ']

/-! ## §1 Newcomers -/

/-- Which keys are known matters, not how they are listed. -/
theorem newcomers_congr {key : α → κ} {known known' : List κ}
    (h : ∀ k, k ∈ known ↔ k ∈ known') (xs : List α) :
    newcomers key known xs = newcomers key known' xs := by
  induction xs generalizing known known' with
  | nil => rfl
  | cons x xs ih =>
    by_cases hx : key x ∈ known
    · -- `x` is dropped on both sides.
      rw [newcomers, newcomers, if_pos hx, if_pos ((h _).1 hx), ih h]
    · -- `x` is kept on both sides, and its key is known from then on.
      have hx' : key x ∉ known' := fun hx' => hx ((h _).2 hx')
      have hcons : ∀ k, k ∈ key x :: known ↔ k ∈ key x :: known' := by
        intro k
        simp only [List.mem_cons, h k]
      rw [newcomers, newcomers, if_neg hx, if_neg hx', ih hcons]

/-- Two key functions that agree on the list keep the same entries. -/
theorem newcomers_congr_key {key key' : α → κ} (known : List κ) {xs : List α}
    (h : ∀ x ∈ xs, key x = key' x) : newcomers key known xs = newcomers key' known xs := by
  induction xs generalizing known with
  | nil => rfl
  | cons x xs ih =>
    have hx : key x = key' x := h x List.mem_cons_self
    have hxs : ∀ y ∈ xs, key y = key' y := fun y hy => h y (List.mem_cons_of_mem _ hy)
    rw [newcomers, newcomers, hx, ih _ hxs, ih _ hxs]

theorem newcomers_map {β : Type} (f : β → α) (key : α → κ) (known : List κ) (xs : List β) :
    newcomers key known (xs.map f) = (newcomers (key ∘ f) known xs).map f := by
  induction xs generalizing known with
  | nil => rfl
  | cons x xs ih =>
    rw [List.map_cons, newcomers, newcomers]
    by_cases hx : key (f x) ∈ known
    · rw [if_pos hx, if_pos (show (key ∘ f) x ∈ known from hx), ih]
    · rw [if_neg hx, if_neg (show (key ∘ f) x ∉ known from hx), ih, List.map_cons]
      rfl

/-! ## §2 The keys of the combined arena -/

/-- The keys of an arena with the newcomers appended. -/
def keysWith (key : α → κ) (known : List κ) (xs : List α) : List κ :=
  known ++ (newcomers key known xs).map key

theorem keysWith_cons_of_mem {key : α → κ} {known : List κ} {x : α} (xs : List α)
    (hx : key x ∈ known) : keysWith key known (x :: xs) = keysWith key known xs := by
  rw [keysWith, newcomers, if_pos hx, keysWith]

/-- The combined arena has exactly the keys of both sides. -/
theorem mem_keysWith {key : α → κ} {known : List κ} {xs : List α} {k : κ} :
    k ∈ keysWith key known xs ↔ k ∈ known ∨ k ∈ xs.map key := by
  induction xs generalizing known with
  | nil => simp [keysWith, newcomers]
  | cons x xs ih =>
    by_cases hx : key x ∈ known
    · -- The key of `x` was known, so `x` adds nothing to either side.
      rw [keysWith_cons_of_mem xs hx, ih, List.map_cons, List.mem_cons]
      constructor
      · rintro (h | h)
        · exact .inl h
        · exact .inr (.inr h)
      · rintro (h | rfl | h)
        · exact .inl h
        · exact .inl hx
        · exact .inr h
    · -- `x` is appended; its key counts as known for the rest.
      have hrest : k ∈ (newcomers key (key x :: known) xs).map key ∨ k ∈ key x :: known
          ↔ k ∈ key x :: known ∨ k ∈ xs.map key := by
        rw [← ih, keysWith, List.mem_append]
        exact Or.comm
      simp only [keysWith, newcomers, if_neg hx, List.map_cons, List.mem_append,
        List.mem_cons] at hrest ⊢
      constructor
      · rintro (h | h | h)
        · exact .inl h
        · exact .inr (.inl h)
        · rcases hrest.1 (.inl h) with (h | h) | h
          · exact .inr (.inl h)
          · exact .inl h
          · exact .inr (.inr h)
      · rintro (h | h | h)
        · exact .inl h
        · exact .inr (.inl h)
        · rcases hrest.2 (.inr h) with h | h | h
          · exact .inr (.inr h)
          · exact .inr (.inl h)
          · exact .inl h

theorem key_mem_keysWith {key : α → κ} (known : List κ) {xs : List α} {x : α} (hx : x ∈ xs) :
    key x ∈ keysWith key known xs :=
  mem_keysWith.2 (.inr (List.mem_map_of_mem hx))

/-- The keys of newcomers are those that were not known. -/
theorem mem_map_newcomers {key : α → κ} {known : List κ} {xs : List α} {k : κ} :
    k ∈ (newcomers key known xs).map key ↔ k ∈ xs.map key ∧ k ∉ known := by
  have hkeys : k ∈ keysWith key known xs ↔ k ∈ known ∨ k ∈ xs.map key := mem_keysWith
  rw [keysWith, List.mem_append] at hkeys
  constructor
  · intro hk
    obtain ⟨x, hx, rfl⟩ := List.mem_map.1 hk
    exact ⟨List.mem_map_of_mem (mem_of_mem_newcomers hx), key_notMem_of_mem_newcomers hx⟩
  · rintro ⟨hk, hnew⟩
    exact (hkeys.2 (.inr hk)).resolve_left hnew

/-- Nothing is known at first, so every entry has the key of a newcomer. -/
theorem exists_mem_newcomers (key : α → κ) {xs : List α} {x : α} (hx : x ∈ xs) :
    ∃ y ∈ newcomers key [] xs, key y = key x :=
  List.mem_map.1 (mem_map_newcomers.2 ⟨List.mem_map_of_mem hx, List.not_mem_nil⟩)

/-- No two newcomers have the same key. -/
theorem nodup_map_newcomers (key : α → κ) (known : List κ) (xs : List α) :
    ((newcomers key known xs).map key).Nodup := by
  induction xs generalizing known with
  | nil => exact List.nodup_nil
  | cons x xs ih =>
    rw [newcomers]
    split
    · exact ih known
    · refine List.nodup_cons.2 ⟨fun hx => ?_, ih _⟩
      exact (mem_map_newcomers.1 hx).2 List.mem_cons_self

/-- Newcomers keep their order. -/
theorem newcomers_sublist (key : α → κ) (known : List κ) (xs : List α) :
    (newcomers key known xs).Sublist xs := by
  induction xs generalizing known with
  | nil => exact .slnil
  | cons x xs ih =>
    rw [newcomers]
    split
    · exact (ih known).cons x
    · exact (ih _).cons_cons x

/-- In a list that is ordered, a newcomer comes before all others with its key. -/
theorem eq_or_rel_of_mem_newcomers {key : α → κ} {known : List κ} {xs : List α} {r : α → α → Prop}
    (hordered : xs.Pairwise r) {x y : α} (hx : x ∈ newcomers key known xs) (hy : y ∈ xs)
    (hkey : key y = key x) : y = x ∨ r x y := by
  induction xs generalizing known with
  | nil => cases hy
  | cons z zs ih =>
    obtain ⟨hz, hzs⟩ := List.pairwise_cons.1 hordered
    rw [newcomers] at hx
    split at hx
    next hknown =>
      -- The key of `z` is known, so neither `x` nor `y` is `z`.
      rcases List.mem_cons.1 hy with rfl | hy
      · exact absurd (hkey ▸ hknown) (key_notMem_of_mem_newcomers hx)
      · exact ih hzs hx hy
    next =>
      -- `z` is kept, and whatever has its key comes after it.
      rcases List.mem_cons.1 hx with rfl | hx
      · exact (List.mem_cons.1 hy).imp id (hz y)
      · rcases List.mem_cons.1 hy with rfl | hy
        · exact absurd (hkey ▸ List.mem_cons_self) (key_notMem_of_mem_newcomers hx)
        · exact ih hzs hx hy

/-- **Interning a concatenation**: the second list meets the keys of the first as known. -/
theorem newcomers_append (key : α → κ) (known : List κ) (xs ys : List α) :
    newcomers key known (xs ++ ys) =
      newcomers key known xs ++ newcomers key (keysWith key known xs) ys := by
  induction xs generalizing known with
  | nil => simp [newcomers, keysWith]
  | cons x xs ih =>
    rw [List.cons_append, newcomers]
    by_cases hx : key x ∈ known
    · rw [if_pos hx, ih, keysWith_cons_of_mem xs hx, newcomers, if_pos hx]
    · -- The key of `x` is listed first on one side and in its place on the other.
      have hkeys : ∀ k, k ∈ keysWith key (key x :: known) xs ↔
          k ∈ keysWith key known (x :: xs) := by
        intro k
        simp only [mem_keysWith, List.map_cons, List.mem_cons]
        exact or_assoc.trans or_left_comm
      rw [if_neg hx, ih, newcomers_congr hkeys, newcomers, if_neg hx, List.cons_append]

/-- **Interning twice**: entries that a finer key already dropped are dropped by a coarser key
as well, so the earlier interning leaves no trace. -/
theorem newcomers_newcomers {fine : α → κ} {coarse : α → κ'} {known : List κ} {known' : List κ'}
    {xs : List α} (hknown : ∀ x ∈ xs, fine x ∈ known → coarse x ∈ known')
    (hkey : ∀ x ∈ xs, ∀ y ∈ xs, fine x = fine y → coarse x = coarse y) :
    newcomers coarse known' (newcomers fine known xs) = newcomers coarse known' xs := by
  induction xs generalizing known known' with
  | nil => rfl
  | cons x xs ih =>
    have htail : ∀ y ∈ xs, y ∈ x :: xs := fun y hy => List.mem_cons_of_mem _ hy
    have hkey' : ∀ y ∈ xs, ∀ z ∈ xs, fine y = fine z → coarse y = coarse z :=
      fun y hy z hz => hkey y (htail y hy) z (htail z hz)
    by_cases hx : fine x ∈ known
    · -- `x` is gone already; the coarser key would have dropped it, too.
      have hx' : coarse x ∈ known' := hknown x List.mem_cons_self hx
      rw [newcomers, if_pos hx, ih (fun y hy => hknown y (htail y hy)) hkey', newcomers,
        if_pos hx']
    · rw [newcomers, if_neg hx, newcomers, newcomers]
      by_cases hx' : coarse x ∈ known'
      · -- `x` is dropped by the coarser key, and so is everything of the same finer key.
        rw [if_pos hx', if_pos hx']
        refine ih (fun y hy hmem => ?_) hkey'
        rcases List.mem_cons.1 hmem with h | h
        · exact hkey y (htail y hy) x List.mem_cons_self h ▸ hx'
        · exact hknown y (htail y hy) h
      · rw [if_neg hx', if_neg hx']
        refine congrArg (x :: ·) (ih (fun y hy hmem => ?_) hkey')
        rcases List.mem_cons.1 hmem with h | h
        · exact List.mem_cons.2 (.inl (hkey y (htail y hy) x List.mem_cons_self h))
        · exact List.mem_cons_of_mem _ (hknown y (htail y hy) h)

/-! ## §3 Texts without repetition -/

section Distinct

variable (xs : List κ) (x : κ)

theorem mem_distinct : x ∈ distinct xs ↔ x ∈ xs := by
  have hmem : x ∈ (newcomers id [] xs).map id ↔ x ∈ xs.map id ∧ x ∉ [] := mem_map_newcomers
  simpa [distinct] using hmem

theorem nodup_distinct : (distinct xs).Nodup := by
  have hnodup : ((newcomers id [] xs).map id).Nodup := nodup_map_newcomers id [] xs
  rwa [List.map_id] at hnodup

/-- One more entry stays if it is not there before. -/
theorem distinct_concat :
    distinct (xs ++ [x]) = if x ∈ xs then distinct xs else distinct xs ++ [x] := by
  have hknown : id x ∈ keysWith id [] xs ↔ x ∈ xs := by
    rw [mem_keysWith]
    simp
  rw [distinct, newcomers_append, newcomers, newcomers, newcomers, distinct]
  by_cases hx : x ∈ xs
  · rw [if_pos hx, if_pos (hknown.2 hx), List.append_nil]
  · rw [if_neg hx, if_neg fun h => hx (hknown.1 h)]

/-- The entries that stay come in the order in which they first appear. -/
theorem pairwise_distinct : (distinct xs).Pairwise fun a b => xs.idxOf a < xs.idxOf b := by
  induction xs using List.reverseRecOn with
  | nil => exact .nil
  | append_singleton xs x ih =>
    -- Where an entry of `xs` first appears does not depend on what comes behind.
    have hsame : ∀ a ∈ distinct xs, (xs ++ [x]).idxOf a = xs.idxOf a := fun a ha =>
      List.idxOf_append_of_mem ((mem_distinct xs a).1 ha)
    have hold : (distinct xs).Pairwise fun a b => (xs ++ [x]).idxOf a < (xs ++ [x]).idxOf b := by
      refine ih.imp_of_mem fun ha hb hlt => ?_
      rwa [hsame _ ha, hsame _ hb]
    rw [distinct_concat]
    split
    next => exact hold
    next hx =>
      refine List.pairwise_append.2 ⟨hold, List.pairwise_singleton _ _, fun a ha b hb => ?_⟩
      obtain rfl := List.mem_singleton.1 hb
      rw [hsame a ha, List.idxOf_append_of_notMem hx]
      exact Nat.lt_add_right _ (List.idxOf_lt_length_of_mem ((mem_distinct xs a).1 ha))

end Distinct

/-! ## §4 Regrouping

Three arenas are combined either from the left, or the last two first.  In the second way the
entries of the last arena are met by a finer key in the middle, and as copies at the end; what is
appended to the first arena is the same. -/

/-- Two arenas combined: copies of the newcomers are appended. -/
def combined (own fine : α → κ) (copy : α → α) (bs cs : List α) : List α :=
  bs ++ (newcomers fine (bs.map own) cs).map copy

/-- How the keys of the entries of `bs` and `cs` hang together on the two ways: `own` and `fine`
are their keys when the two arenas are combined, `first` and `last` when they are absorbed one
after the other, and `whole` is the key when the combination is absorbed. -/
structure Regrouping (own first fine last whole : α → κ) (coarsen : κ → κ) (copy : α → α)
    (bs cs : List α) : Prop where
  first_eq : ∀ y ∈ bs, first y = coarsen (own y)
  whole_eq : ∀ y ∈ bs, whole y = first y
  last_eq : ∀ x ∈ cs, last x = coarsen (fine x)
  whole_copy : ∀ x ∈ cs, whole (copy x) = last x

namespace Regrouping

variable {own first fine last whole : α → κ} {coarsen : κ → κ} {copy : α → α} {bs cs : List α}

/-- The keys by which the combination is met are coarser than those by which it was formed. -/
theorem map_whole (h : Regrouping own first fine last whole coarsen copy bs cs) :
    (combined own fine copy bs cs).map whole = (keysWith fine (bs.map own) cs).map coarsen := by
  -- On the first arena the two agree by assumption, on the second through the copies.
  have hbs : bs.map whole = (bs.map own).map coarsen := by
    rw [List.map_map]
    refine List.map_congr_left fun y hy => ?_
    rw [h.whole_eq y hy, h.first_eq y hy, Function.comp_apply]
  have hcs : ((newcomers fine (bs.map own) cs).map copy).map whole =
      ((newcomers fine (bs.map own) cs).map fine).map coarsen := by
    rw [List.map_map, List.map_map]
    refine List.map_congr_left fun x hx => ?_
    have hx' : x ∈ cs := mem_of_mem_newcomers hx
    rw [Function.comp_apply, h.whole_copy x hx', h.last_eq x hx', Function.comp_apply]
  rw [combined, keysWith, List.map_append, List.map_append, hbs, hcs]

/-- **Regrouping**: interning the combination of two arenas appends what interning the one and
then the other appends. -/
theorem newcomers_combined (h : Regrouping own first fine last whole coarsen copy bs cs)
    (known : List κ) :
    newcomers whole known (combined own fine copy bs cs) =
      newcomers first known bs ++ (newcomers last (keysWith first known bs) cs).map copy := by
  -- On `bs` the two ways use the same keys.
  have hkeys : keysWith whole known bs = keysWith first known bs := by
    rw [keysWith, keysWith, newcomers_congr_key known h.whole_eq]
    refine congrArg (known ++ ·) (List.map_congr_left fun y hy => ?_)
    exact h.whole_eq y (mem_of_mem_newcomers hy)
  -- What the finer key recognized in `bs`, the coarser key recognizes after `bs` was absorbed.
  have hknown : ∀ x ∈ cs, fine x ∈ bs.map own → last x ∈ keysWith first known bs := by
    intro x hx hmem
    obtain ⟨y, hy, hxy⟩ := List.mem_map.1 hmem
    rw [h.last_eq x hx, ← hxy, ← h.first_eq y hy]
    exact key_mem_keysWith known hy
  have hkey : ∀ x ∈ cs, ∀ y ∈ cs, fine x = fine y → last x = last y := by
    intro x hx y hy hxy
    rw [h.last_eq x hx, h.last_eq y hy, hxy]
  -- A copy has the key that its original has on the other way.
  have hcopies : newcomers (whole ∘ copy) (keysWith first known bs)
        (newcomers fine (bs.map own) cs) =
      newcomers last (keysWith first known bs) (newcomers fine (bs.map own) cs) :=
    newcomers_congr_key _ fun x hx => h.whole_copy x (mem_of_mem_newcomers hx)
  rw [combined, newcomers_append, newcomers_congr_key known h.whole_eq, hkeys, newcomers_map,
    hcopies, newcomers_newcomers hknown hkey]

/-- The keys after interning the combination of two arenas. -/
theorem keysWith_combined (h : Regrouping own first fine last whole coarsen copy bs cs)
    (known : List κ) :
    keysWith whole known (combined own fine copy bs cs) =
      keysWith last (keysWith first known bs) cs := by
  -- Both parts of what is new are met by the keys that they had on their own.
  have hfirst : (newcomers first known bs).map whole = (newcomers first known bs).map first :=
    List.map_congr_left fun y hy => h.whole_eq y (mem_of_mem_newcomers hy)
  have hlast : (newcomers last (keysWith first known bs) cs).map (whole ∘ copy) =
      (newcomers last (keysWith first known bs) cs).map last :=
    List.map_congr_left fun x hx => h.whole_copy x (mem_of_mem_newcomers hx)
  calc keysWith whole known (combined own fine copy bs cs)
      = known ++ (newcomers first known bs ++
          (newcomers last (keysWith first known bs) cs).map copy).map whole := by
        rw [keysWith, h.newcomers_combined]
    _ = known ++ ((newcomers first known bs).map first ++
          (newcomers last (keysWith first known bs) cs).map last) := by
        rw [List.map_append, List.map_map, hfirst, hlast]
    _ = keysWith last (keysWith first known bs) cs := by
        simp only [keysWith, List.append_assoc]

end Regrouping

/-- Appending keys does not move the first entry of a key that was there. -/
theorem idxOf_keysWith_of_mem (key : α → κ) {known : List κ} (xs : List α) {k : κ}
    (hk : k ∈ known) : (keysWith key known xs).idxOf k = known.idxOf k := by
  rw [keysWith, List.idxOf_append, if_pos hk]

/-! ## §5 Handle maps -/

namespace HandleMap

theorem apply_of_neg (m : HandleMap) {h : Handle} (hneg : h < 0) : m.apply h = h := by
  rw [apply, if_pos hneg]

/-- **Placement**: the handle of an incoming entry is sent to the first entry of the combined
arena with the same key. -/
theorem apply_placement (merged incoming : List κ) {i : Nat} (hi : i < incoming.length) :
    (placement merged incoming).apply (i : Int) = (merged.idxOf incoming[i] : Int) := by
  have hnonneg : ¬ ((i : Int) < 0) := Int.not_lt.2 (Int.natCast_nonneg i)
  simp [apply, placement, hnonneg, hi]

/-- A handle that an arena does not have stays as it is. -/
theorem apply_placement_of_notIn (merged incoming : List κ) {h : Handle}
    (hout : h < 0 ∨ incoming.length ≤ h) : (placement merged incoming).apply h = h := by
  rcases hout with hneg | hle
  · exact apply_of_neg _ hneg
  · have hnonneg : 0 ≤ h := Int.le_trans (Int.natCast_nonneg _) hle
    have hlen : (placement merged incoming).length ≤ h.toNat := by
      rw [placement, List.length_map]
      exact (Int.le_toNat hnonneg).2 hle
    rw [apply, if_neg (Int.not_lt.2 hnonneg), List.getElem?_eq_none hlen, Option.getD_none]

end HandleMap

namespace Regrouping

variable {own first fine last whole : α → κ} {coarsen : κ → κ} {copy : α → α} {bs cs : List α}

/-- An entry of the first of the two arenas goes where it goes without the second one. -/
theorem placement_left (h : Regrouping own first fine last whole coarsen copy bs cs)
    (known : List κ) {i : Nat} (hi : i < bs.length) :
    (placement (keysWith whole known (combined own fine copy bs cs))
        ((combined own fine copy bs cs).map whole)).apply (i : Int) =
      (placement (keysWith first known bs) (bs.map first)).apply (i : Int) := by
  -- The entry stands in the front part of the combination, under the key that it has on its own.
  have hi' : i < ((combined own fine copy bs cs).map whole).length := by
    rw [List.length_map, combined, List.length_append]
    exact Nat.lt_of_lt_of_le hi (Nat.le_add_right _ _)
  have hget : ((combined own fine copy bs cs).map whole)[i] = first bs[i] := by
    simp only [combined, List.map_append, List.getElem_append_left, List.length_map, hi,
      List.getElem_map]
    exact h.whole_eq _ (List.getElem_mem hi)
  have hmem : first bs[i] ∈ keysWith first known bs := key_mem_keysWith known (List.getElem_mem hi)
  rw [HandleMap.apply_placement _ _ hi', hget, h.keysWith_combined,
    idxOf_keysWith_of_mem _ _ hmem, HandleMap.apply_placement _ _ (by simpa using hi),
    List.getElem_map]

/-- An entry of the second of the two arenas goes where its place in the combination goes. -/
theorem placement_right (h : Regrouping own first fine last whole coarsen copy bs cs)
    (known : List κ) {i : Nat} (hi : i < cs.length) :
    (placement (keysWith whole known (combined own fine copy bs cs))
        ((combined own fine copy bs cs).map whole)).apply
          ((placement (keysWith fine (bs.map own) cs) (cs.map fine)).apply (i : Int)) =
      (placement (keysWith last (keysWith first known bs) cs) (cs.map last)).apply (i : Int) := by
  have hmem : fine cs[i] ∈ keysWith fine (bs.map own) cs :=
    key_mem_keysWith _ (List.getElem_mem hi)
  have hlt : (keysWith fine (bs.map own) cs).idxOf (fine cs[i]) <
      (keysWith fine (bs.map own) cs).length := List.idxOf_lt_length_of_mem hmem
  -- At its place in the combination there is an entry of the same finer key.
  have hlast : last cs[i] = coarsen (fine cs[i]) := h.last_eq _ (List.getElem_mem hi)
  rw [HandleMap.apply_placement _ (cs.map fine) (by simpa using hi), List.getElem_map,
    h.keysWith_combined, h.map_whole, HandleMap.apply_placement _ _ (by simpa using hlt),
    List.getElem_map, List.getElem_idxOf hlt, ← hlast,
    HandleMap.apply_placement _ (cs.map last) (by simpa using hi), List.getElem_map]

end Regrouping

/-- A valid handle is a position. -/
theorem exists_position {size : Nat} {h : Int} (hnonneg : 0 ≤ h) (hlt : h < size) :
    ∃ i : Nat, i < size ∧ h = i := by
  refine ⟨h.toNat, ?_, ?_⟩ <;> omega

end SchemaGraph
