/-!
# Interning by Key

Two arenas are combined by *interning*: an incoming entry whose key the arena already has is
represented by the first entry with that key, and any other is appended once.  Schemas are
interned by name and shape, variants by short name, inherited members by member name.
-/

namespace SchemaGraph

variable {α κ : Type} [DecidableEq κ]

/-! ## §1 Newcomers -/

/-- The entries whose key is neither known nor the key of an earlier entry, in order. -/
def newcomers (key : α → κ) : (known : List κ) → List α → List α
  | _, [] => []
  | known, x :: xs =>
    if key x ∈ known then newcomers key known xs
    else x :: newcomers key (key x :: known) xs

/-- Newcomers come from the list. -/
theorem mem_of_mem_newcomers {key : α → κ} {known : List κ} {xs : List α} {x : α}
    (h : x ∈ newcomers key known xs) : x ∈ xs := by
  induction xs generalizing known with
  | nil => simp [newcomers] at h
  | cons y ys ih =>
    rw [newcomers] at h
    split at h
    · exact List.mem_cons_of_mem _ (ih h)
    · rcases List.mem_cons.1 h with rfl | h
      · exact List.mem_cons_self
      · exact List.mem_cons_of_mem _ (ih h)

/-- The key of a newcomer was not known. -/
theorem key_notMem_of_mem_newcomers {key : α → κ} {known : List κ} {xs : List α} {x : α}
    (h : x ∈ newcomers key known xs) : key x ∉ known := by
  induction xs generalizing known with
  | nil => simp [newcomers] at h
  | cons y ys ih =>
    rw [newcomers] at h
    split at h
    next => exact ih h
    next hy =>
      rcases List.mem_cons.1 h with rfl | h
      · exact hy
      · exact fun hx => ih h (List.mem_cons_of_mem _ hx)

/-! ## §2 Texts without repetition -/

/-- The list without later repetitions: the first occurrence of each entry stays. -/
def distinct (xs : List κ) : List κ := newcomers id [] xs

end SchemaGraph
