import SchemaGraph.Proofs.Json.Text

/-!
# Documents That Come Back Unchanged

Of a text comes back the value it was written from, if the integers have at most 64 bits and
nothing nests deeper than a document may.

- `Exact.readBack`: what comes back is the value itself
- `Exact.parse?_compact`, `Exact.parse?_pretty`: whole documents
-/

namespace SchemaGraph.Json

/-! ## §1 Parts of values -/

theorem allReadable_iff {xs : List Json} :
    allReadable xs = true ↔ ∀ x ∈ xs, x.isReadable = true := by
  induction xs with
  | nil => simp [allReadable]
  | cons x xs ih => simp [allReadable, ih]

theorem allEntriesReadable_iff {xs : List (String × Json)} :
    allEntriesReadable xs = true ↔ ∀ e ∈ xs, e.2.isReadable = true := by
  induction xs with
  | nil => simp [allEntriesReadable]
  | cons e xs ih => simp [allEntriesReadable, ih]

theorem height_le_heightItems {x : Json} {xs : List Json} (h : x ∈ xs) :
    x.height ≤ heightItems xs := by
  induction xs with
  | nil => cases h
  | cons y xs ih =>
    rw [heightItems]
    rcases List.mem_cons.1 h with rfl | h
    · exact Nat.le_max_left ..
    · exact Nat.le_trans (ih h) (Nat.le_max_right ..)

theorem height_le_heightEntries {e : String × Json} {xs : List (String × Json)} (h : e ∈ xs) :
    e.2.height ≤ heightEntries xs := by
  induction xs with
  | nil => cases h
  | cons d xs ih =>
    rw [heightEntries]
    rcases List.mem_cons.1 h with rfl | h
    · exact Nat.le_max_left ..
    · exact Nat.le_trans (ih h) (Nat.le_max_right ..)

/-- The brackets around values take one level. -/
theorem height_arr_le {xs : List Json} {n : Nat} :
    (Json.arr xs).height ≤ n + 1 ↔ ∀ x ∈ xs, x.height ≤ n := by
  have hitems : heightItems xs ≤ n ↔ ∀ x ∈ xs, x.height ≤ n := by
    induction xs with
    | nil => simp [heightItems]
    | cons x xs ih => rw [heightItems, Nat.max_le, ih, List.forall_mem_cons]
  rw [height, ← hitems]
  omega

theorem height_obj_le {xs : List (String × Json)} {n : Nat} :
    (Json.obj xs).height ≤ n + 1 ↔ ∀ e ∈ xs, e.2.height ≤ n := by
  have hentries : heightEntries xs ≤ n ↔ ∀ e ∈ xs, e.2.height ≤ n := by
    induction xs with
    | nil => simp [heightEntries]
    | cons e xs ih => rw [heightEntries, Nat.max_le, ih, List.forall_mem_cons]
  rw [height, ← hentries]
  omega

/-! ## §2 Exact values -/

/-- The text of every part tells what the part is, and no integer has more than 64 bits. -/
inductive Exact : Json → Prop where
  | null : Exact .null
  | bool (b : Bool) : Exact (.bool b)
  | int {n : Int} (low : -0x8000000000000000 ≤ n) (high : n ≤ 0xFFFFFFFFFFFFFFFF) : Exact (.int n)
  | str (s : String) : Exact (.str s)
  | arr {items : List Json} (all : ∀ x ∈ items, Exact x) : Exact (.arr items)
  | obj {entries : List (String × Json)} (all : ∀ e ∈ entries, Exact e.2) : Exact (.obj entries)

namespace Exact

attribute [simp] null bool str

variable {j : Json} {depth : Nat}

theorem isPlain (h : Exact j) : j.isPlain = true := by
  induction h with
  | null | bool | int | str => rfl
  | arr _ ih => exact allPlain_iff.2 ih
  | obj _ ih => exact allEntriesPlain_iff.2 ih

theorem isReadable (h : Exact j) : j.isReadable = true := by
  induction h with
  | null | bool | int | str => rfl
  | arr _ ih => exact allReadable_iff.2 ih
  | obj _ ih => exact allEntriesReadable_iff.2 ih

/-- **Nothing is lost**: an exact value comes back as itself where enough levels are left. -/
theorem readBack (h : Exact j) (hheight : j.height ≤ depth) : j.readBack depth = j := by
  induction h generalizing depth with
  | null | bool | str => rfl
  | int low high => rw [readBack_int, rereadInt_of_range low high]
  | @arr items _ ih =>
    obtain ⟨depth, rfl⟩ : ∃ d, depth = d + 1 := ⟨depth - 1, by rw [height] at hheight; omega⟩
    -- The brackets take one level, and the rest is left to the items.
    have hitems : heightItems items ≤ depth := Nat.le_of_succ_le_succ hheight
    rw [readBack_arr]
    refine congrArg Json.arr ((List.map_congr_left fun x hx => ?_).trans (List.map_id items))
    exact ih x hx (Nat.le_trans (height_le_heightItems hx) hitems)
  | @obj entries _ ih =>
    obtain ⟨depth, rfl⟩ : ∃ d, depth = d + 1 := ⟨depth - 1, by rw [height] at hheight; omega⟩
    -- The same for the entries of an object.
    have hentries : heightEntries entries ≤ depth := Nat.le_of_succ_le_succ hheight
    rw [readBack_obj]
    refine congrArg Json.obj ((List.map_congr_left fun e he => ?_).trans (List.map_id entries))
    rw [ih e he (Nat.le_trans (height_le_heightEntries he) hentries)]
    rfl

/-! ## §3 Documents -/

/-- **Compact text** is read as what it was written from. -/
theorem parse?_compact (h : Exact j) (hheight : j.height ≤ maxDepth) :
    parse? j.compact = some j := by
  rw [Json.parse?_compact h.isPlain, h.readBack hheight]

/-- **Pretty text** is read as what it was written from. -/
theorem parse?_pretty (h : Exact j) (hheight : j.height ≤ maxDepth) :
    parse? j.pretty = some j := by
  rw [Json.parse?_pretty h.isPlain, h.readBack hheight]

end Exact

end SchemaGraph.Json
