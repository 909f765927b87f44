import Mathlib.Data.List.Nodup
import Mathlib.Data.List.Perm.Subperm
import Mathlib.Data.Nat.Find
import SchemaGraph.Proofs.Module.Lookup

/-!
# Ancestry

A module decides in two ways which types derive from a type.  Downwards it expands an index of its
own types by their bases; upwards it follows base types through own and imported declarations.
Both are walks along one step function, `climb`, which only differ in whose bases they follow.

- `Module.isAssignableTo_iff`: the walk upwards finds every type on the way, cycles or not
- `Module.mem_subtypesOf_iff`: an own type is listed under its own base
- `Module.crossesImport_iff`: a way through own types only, told by the imported types
-/

namespace SchemaGraph

namespace Module

variable {m : Module} {step : String → Option String} {x y a : String} {i j n : Nat}

/-! ## §1 Climbing -/

/-- Where `n` steps lead to, if there are that many. -/
def climb (step : String → Option String) : (n : Nat) → String → Option String
  | 0, x => some x
  | n + 1, x => (step x).bind (climb step n)

theorem climb_one : climb step 1 x = step x := by
  cases h : step x <;> simp [climb, h]

theorem climb_add : climb step (i + j) x = (climb step i x).bind (climb step j) := by
  induction i generalizing x with
  | zero => simp [climb]
  | succ i ih =>
    rw [Nat.succ_add]
    cases h : step x with
    | none => simp [climb, h]
    | some y => simp [climb, h, ih]

theorem climb_from (hi : climb step i x = some y) (hj : climb step j y = some a) :
    climb step (i + j) x = some a := by
  simp [climb_add, hi, hj]

/-- Every place before the end of a way is there, and has a step to the next one. -/
theorem exists_climb_of_lt (h : climb step n x = some a) (hi : i < n) :
    ∃ y z, climb step i x = some y ∧ step y = some z ∧ climb step (n - (i + 1)) z = some a := by
  have hn : n = i + (1 + (n - (i + 1))) := by omega
  rw [hn, climb_add] at h
  obtain ⟨y, hy, h⟩ := Option.bind_eq_some_iff.1 h
  rw [climb_add, climb_one] at h
  obtain ⟨z, hz, h⟩ := Option.bind_eq_some_iff.1 h
  exact ⟨y, z, hy, hz, h⟩

/-- A way that visits no place twice, its first and last place apart. -/
def IsSimple (step : String → Option String) (n : Nat) (x : String) : Prop :=
  ∀ i j y, i < j → j ≤ n → 0 < i ∨ j < n → climb step i x = some y → climb step j x ≠ some y

/-- Of the ways to a place the shortest one is simple: what lies between two visits of a place
could be left out. -/
theorem exists_isSimple (h : climb step (n + 1) x = some a) :
    ∃ k, climb step (k + 1) x = some a ∧ IsSimple step (k + 1) x := by
  classical
  have hex : ∃ k, climb step (k + 1) x = some a := ⟨n, h⟩
  obtain ⟨k, hk, hmin⟩ : ∃ k, climb step (k + 1) x = some a ∧
      ∀ l < k, climb step (l + 1) x ≠ some a :=
    ⟨Nat.find hex, Nat.find_spec hex, fun l hl => Nat.find_min hex hl⟩
  refine ⟨k, hk, fun i j y hij hj hends hi hj' => ?_⟩
  -- Cut out the part from `i` to `j`; at least one step stays, because the two are not the ends.
  have hrest : climb step (k + 1 - j) y = some a := by
    rw [show k + 1 = j + (k + 1 - j) by omega, climb_add, hj'] at hk
    exact hk
  obtain ⟨l, hl⟩ : ∃ l, i + (k + 1 - j) = l + 1 := ⟨i + (k + 1 - j) - 1, by omega⟩
  have hshort := climb_from hi hrest
  rw [hl] at hshort
  exact hmin l (by omega) hshort

/-- A simple way is no longer than there are places with a step. -/
theorem length_le_of_isSimple {places : List String} (hplaces : ∀ y z, step y = some z → y ∈ places)
    (h : climb step n x = some a) (hsimple : IsSimple step n x) : n ≤ places.length := by
  -- On the way there is a place at every step.
  have hplace : ∀ i < n, climb step i x = some ((climb step i x).getD "") := by
    intro i hi
    obtain ⟨y, _, hy, -, -⟩ := exists_climb_of_lt h hi
    simp [hy]
  -- The places on the way are pairwise different and all have a step.
  let visited := (List.range n).map fun i => (climb step i x).getD ""
  have hnodup : visited.Nodup := by
    refine List.nodup_range.map_on fun i hi j hj heq => ?_
    have hin : i < n := List.mem_range.1 hi
    have hjn : j < n := List.mem_range.1 hj
    have hi' := hplace i hin
    have hj' := hplace j hjn
    rw [heq] at hi'
    rcases Nat.lt_trichotomy i j with hlt | heq | hlt
    · exact absurd hj' (hsimple i j _ hlt (Nat.le_of_lt hjn) (.inr hjn) hi')
    · exact heq
    · exact absurd hi' (hsimple j i _ hlt (Nat.le_of_lt hin) (.inr hin) hj')
  have hsubset : visited ⊆ places := by
    intro z hz
    obtain ⟨i, hi, rfl⟩ := List.mem_map.1 hz
    obtain ⟨y, z, hy, hstep, -⟩ := exists_climb_of_lt h (List.mem_range.1 hi)
    simpa [hy] using hplaces y z hstep
  simpa [visited] using (hnodup.subperm hsubset).length_le

/-! ## §2 Upwards -/

theorem reaches_iff {steps : Nat} :
    m.reaches steps x a = true ↔ ∃ n ≤ steps, climb m.base? n x = some a := by
  induction steps generalizing x with
  | zero => simp [reaches, climb]
  | succ steps ih =>
    by_cases hxa : x = a
    · simpa [reaches, hxa] using ⟨0, Nat.zero_le _, rfl⟩
    · -- The type itself is not the ancestor, so a way to it begins with a step.
      have hfirst : (∃ n ≤ steps + 1, climb m.base? n x = some a) ↔
          ∃ n ≤ steps, climb m.base? (n + 1) x = some a := by
        constructor
        · rintro ⟨n | n, hn, h⟩
          · exact absurd (Option.some.inj h) hxa
          · exact ⟨n, by omega, h⟩
        · rintro ⟨n, hn, h⟩
          exact ⟨n + 1, by omega, h⟩
      rw [hfirst]
      cases hbase : m.base? x with
      | none => simp [reaches, hxa, hbase, climb]
      | some base => simp [reaches, hxa, hbase, climb, ih]

theorem mem_declared_of_base? (h : m.base? x = some y) :
    x ∈ (m.types ++ m.imports).map (·.fullName) := by
  obtain ⟨t, ht, -⟩ := Option.bind_eq_some_iff.1 h
  obtain ⟨hmem, rfl⟩ := lookup?_eq_some ht
  exact List.mem_map_of_mem hmem

/-- **The walk upwards**: it stops early enough on every cycle and late enough on every chain. -/
theorem isAssignableTo_iff :
    m.isAssignableTo x a = true ↔ ∃ n, climb m.base? n x = some a := by
  rw [isAssignableTo, reaches_iff]
  constructor
  -- A longer way can be shortened to a simple one, which the bound allows for.
  · rintro ⟨n, -, h⟩
    exact ⟨n, h⟩
  · rintro ⟨n | n, h⟩
    · exact ⟨0, Nat.zero_le _, h⟩
    · obtain ⟨k, hk, hsimple⟩ := exists_isSimple h
      have hlength := length_le_of_isSimple (fun y z => mem_declared_of_base?) hk hsimple
      refine ⟨k + 1, ?_, hk⟩
      simpa [declarationCount] using hlength

/-! ## §3 Downwards -/

/-- The base of an own type. -/
def ownBase? (m : Module) (x : String) : Option String := (lastNamed? m.types x).bind (·.base)

theorem mem_own_of_ownBase? (h : m.ownBase? x = some y) : x ∈ m.types.map (·.fullName) := by
  obtain ⟨t, ht, -⟩ := Option.bind_eq_some_iff.1 h
  obtain ⟨hmem, rfl⟩ := lastNamed?_eq_some ht
  exact List.mem_map_of_mem hmem

theorem base?_of_ownBase? (h : m.ownBase? x = some y) : m.base? x = some y := by
  obtain ⟨t, ht, hbase⟩ := Option.bind_eq_some_iff.1 h
  simp [base?, lookup?, ht, hbase]

theorem ownBase?_of_isOwn (h : m.isOwn x = true) : m.ownBase? x = m.base? x := by
  obtain ⟨t, ht⟩ := exists_lastNamed?_of_isOwn h
  simp [ownBase?, base?, lookup?, ht]

theorem mem_subtypesOf_iff (hdistinct : (m.types.map (·.fullName)).Nodup) :
    x ∈ m.subtypesOf y ↔ m.ownBase? x = some y := by
  simp only [subtypesOf, List.mem_map, List.mem_filter, decide_eq_true_eq, ownBase?,
    Option.bind_eq_some_iff, lastNamed?_eq_some_iff hdistinct]
  constructor
  · rintro ⟨t, ⟨hmem, hbase⟩, hname⟩
    exact ⟨t, ⟨hmem, hname⟩, hbase⟩
  · rintro ⟨t, ⟨hmem, hname⟩, hbase⟩
    exact ⟨t, ⟨hmem, hbase⟩, hname⟩

/-! ## §4 Both ways -/

/-- Own and imported types have different names. -/
def DistinctNames (m : Module) : Prop := ((m.types ++ m.imports).map (·.fullName)).Nodup

/-- No type derives from itself. -/
def Acyclic (m : Module) : Prop := ∀ x n, climb m.base? (n + 1) x ≠ some x

/-- An imported type stands on the way from a type to its ancestor, below the latter. -/
def CrossesImport (m : Module) (x ancestor : String) : Prop :=
  ∃ t ∈ m.imports, t.fullName ≠ ancestor ∧ m.isAssignableTo x t.fullName = true
    ∧ m.isAssignableTo t.fullName ancestor = true

/-- A module is acyclic if its types have ranks that decrease towards their bases. -/
theorem acyclic_of_rank (rank : String → Nat)
    (hrank : ∀ t ∈ m.types ++ m.imports, ∀ base, t.base = some base →
      rank base < rank t.fullName) : m.Acyclic := by
  have hstep : ∀ y z, m.base? y = some z → rank z < rank y := by
    intro y z h
    obtain ⟨t, ht, hbase⟩ := Option.bind_eq_some_iff.1 h
    obtain ⟨hmem, rfl⟩ := lookup?_eq_some ht
    exact hrank t hmem z hbase
  -- The rank decreases with every step, so no way leads back.
  have hclimb : ∀ n y z, climb m.base? (n + 1) y = some z → rank z < rank y := by
    intro n
    induction n with
    | zero =>
      intro y z h
      rw [climb_one] at h
      exact hstep y z h
    | succ n ih =>
      intro y z h
      obtain ⟨w, hw, h⟩ := Option.bind_eq_some_iff.1 h
      exact Nat.lt_trans (ih w z h) (hstep y w hw)
  exact fun x n h => absurd (hclimb n x x h) (Nat.lt_irrefl _)

/-- A module is acyclic if some order has every base before the types that derive from it. -/
theorem acyclic_of_order (order : List String)
    (horder : ∀ t ∈ m.types ++ m.imports, t.base.all fun base =>
      decide (order.idxOf base < order.idxOf t.fullName)) : m.Acyclic := by
  refine acyclic_of_rank order.idxOf fun t ht base hbase => ?_
  simpa [hbase] using horder t ht

/-- In an acyclic module there is one way only between two types. -/
theorem Acyclic.climb_unique (hacyclic : m.Acyclic) (hi : climb m.base? i x = some a)
    (hj : climb m.base? j x = some a) : i = j := by
  have hlt : ∀ {k l}, k < l → climb m.base? k x = some a → climb m.base? l x ≠ some a := by
    intro k l hkl hk hl
    rw [show l = k + (l - k - 1 + 1) by omega, climb_add, hk] at hl
    exact hacyclic a (l - k - 1) hl
  rcases Nat.lt_trichotomy i j with h | h | h
  · exact absurd hj (hlt h hi)
  · exact h
  · exact absurd hi (hlt h hj)

theorem climb_base?_of_climb_ownBase? (h : climb m.ownBase? n x = some a) :
    climb m.base? n x = some a := by
  induction n generalizing x with
  | zero => exact h
  | succ n ih =>
    obtain ⟨y, hy, h⟩ := Option.bind_eq_some_iff.1 h
    exact Option.bind_eq_some_iff.2 ⟨y, base?_of_ownBase? hy, ih h⟩

/-- A way up that meets nothing but own types is one that the index knows. -/
theorem climb_ownBase?_of_forall_isOwn (h : climb m.base? n x = some a)
    (hown : ∀ i < n, ∀ y, climb m.base? i x = some y → m.isOwn y = true) :
    climb m.ownBase? n x = some a := by
  induction n generalizing x with
  | zero => exact h
  | succ n ih =>
    obtain ⟨y, hy, h⟩ := Option.bind_eq_some_iff.1 h
    refine Option.bind_eq_some_iff.2 ⟨y, ?_, ih h fun i hi z hz => ?_⟩
    · rw [ownBase?_of_isOwn (hown 0 (Nat.succ_pos n) x rfl), hy]
    · exact hown (i + 1) (by omega) z (Option.bind_eq_some_iff.2 ⟨y, hy, hz⟩)

/-- The ancestor of a type is met with own types only, exactly if no imported type is crossed. -/
theorem crossesImport_iff (hdistinct : m.DistinctNames) (hacyclic : m.Acyclic)
    (h : climb m.base? n x = some a) :
    m.CrossesImport x a ↔ climb m.ownBase? n x ≠ some a := by
  constructor
  · rintro ⟨t, ht, hta, hxt, hta'⟩ hclimb
    obtain ⟨i, hi⟩ := isAssignableTo_iff.1 hxt
    obtain ⟨j, hj⟩ := isAssignableTo_iff.1 hta'
    obtain rfl : n = i + j := hacyclic.climb_unique h (climb_from hi hj)
    -- The imported type lies below the ancestor, so the index has to step from it.
    have hij : i < i + j := by
      rcases Nat.eq_zero_or_pos j with rfl | hpos
      · exact absurd (Option.some.inj hj) hta
      · omega
    obtain ⟨y, z, hy, hstep, -⟩ := exists_climb_of_lt hclimb hij
    obtain rfl : t.fullName = y :=
      Option.some.inj (hi.symm.trans (climb_base?_of_climb_ownBase? hy))
    rw [DistinctNames, List.map_append] at hdistinct
    exact (List.nodup_append.1 hdistinct).2.2 _ (mem_own_of_ownBase? hstep) _
      (List.mem_map_of_mem ht) rfl
  · intro hclimb
    by_contra hcross
    refine hclimb (climb_ownBase?_of_forall_isOwn h fun i hi y hy => ?_)
    -- What has a base is declared; were it imported, it would be crossed.
    obtain ⟨y', z, hy', hstep, hz⟩ := exists_climb_of_lt h hi
    obtain rfl : y = y' := Option.some.inj (hy.symm.trans hy')
    obtain ⟨t, ht, rfl⟩ := List.mem_map.1 (mem_declared_of_base? hstep)
    rcases List.mem_append.1 ht with ht | ht
    · exact List.any_eq_true.2 ⟨t, ht, by simp⟩
    · have hup : climb m.base? (n - i) t.fullName = some a := by
        rw [show n = i + (n - i) by omega, climb_add, hy] at h
        exact h
      refine absurd ⟨t, ht, fun hta => ?_, isAssignableTo_iff.2 ⟨i, hy⟩,
        isAssignableTo_iff.2 ⟨n - i, hup⟩⟩ hcross
      exact absurd (hacyclic.climb_unique (hta ▸ hy) h) (by omega)

end Module

end SchemaGraph
