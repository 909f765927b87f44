import SchemaGraph.Model.Field

/-!
# Entries of an Arena

A handle points at the entry at its place: a negative handle at nothing, any other one at the entry
whose number it is.
-/

namespace SchemaGraph

variable {α : Type}

theorem entryAt?_of_neg (arena : List α) {h : Handle} (hneg : h < 0) :
    entryAt? arena h = none := by
  rw [entryAt?, if_pos hneg]

theorem entryAt?_natCast (arena : List α) (i : Nat) :
    entryAt? arena (i : Int) = arena[i]? := by
  have hnonneg : ¬ ((i : Int) < 0) := Int.not_lt.2 (Int.natCast_nonneg i)
  rw [entryAt?, if_neg hnonneg, Int.toNat_natCast]

theorem exists_getElem_of_entryAt? {arena : List α} {h : Handle} {x : α}
    (hx : entryAt? arena h = some x) :
    ∃ i : Nat, ∃ hi : i < arena.length, h = i ∧ arena[i] = x := by
  unfold entryAt? at hx
  split at hx
  next hneg => cases hx
  next hneg =>
    obtain ⟨hi, hget⟩ := List.getElem?_eq_some_iff.1 hx
    exact ⟨h.toNat, hi, (Int.toNat_of_nonneg (Int.not_lt.1 hneg)).symm, hget⟩

/-- There is an entry at every place of the arena. -/
theorem exists_entryAt?_eq_some {arena : List α} {h : Handle} (hnonneg : 0 ≤ h)
    (hlt : h < arena.length) : ∃ x, entryAt? arena h = some x := by
  obtain ⟨i, rfl⟩ := Int.eq_ofNat_of_zero_le hnonneg
  rw [entryAt?_natCast]
  exact ⟨_, List.getElem?_eq_getElem (Int.ofNat_lt.1 hlt)⟩

end SchemaGraph
