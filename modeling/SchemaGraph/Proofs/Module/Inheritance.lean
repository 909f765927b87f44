import SchemaGraph.Proofs.Module.Ancestry
import SchemaGraph.Proofs.Module.Walks

/-!
# Inheritance

What a base chain holds, said of the base types themselves.  A level of a chain is what a number of
steps up leads to, as long as the way has met neither the root nor the same type twice.  Where
different types do not derive from each other, a way can only come back to a type that is its own
base.

- `Module.getElem?_baseChain`: the levels of a base chain, one by one
- `Module.NoMutualBases.eq_of_climb`: of two types with one base, none is above the other
-/

namespace SchemaGraph

namespace Module

variable {m : Module} {root name x y a : String} {path : List String} {i j fuel : Nat}
  {t : TypeInfo}

/-! ## §1 Levels -/

/-- The declaration that `i` steps up from `name` lead to, with nothing on the way that would end
the chain: neither the root nor a type met before. -/
structure IsLevel (m : Module) (root name : String) (i : Nat) (t : TypeInfo) : Prop where
  reached : climb m.base? i name = some t.fullName
  declared : m.lookup? t.fullName = some t
  below : ∀ j ≤ i, climb m.base? j name ≠ some root
  fresh : ∀ j k y, j < k → k ≤ i → climb m.base? j name = some y → climb m.base? k name ≠ some y

/-- The way has met none of the names of a list. -/
def Avoids (m : Module) (path : List String) (name : String) (i : Nat) : Prop :=
  ∀ j ≤ i, ∀ y, climb m.base? j name = some y → y ∉ path

theorem isLevel_zero : m.IsLevel root name 0 t ↔ name ≠ root ∧ m.lookup? name = some t := by
  constructor
  · rintro ⟨hreached, hdeclared, hbelow, -⟩
    obtain rfl : name = t.fullName := Option.some.inj hreached
    exact ⟨fun h => hbelow 0 (Nat.le_refl 0) (congrArg some h), hdeclared⟩
  · rintro ⟨hroot, hlookup⟩
    obtain ⟨-, rfl⟩ := lookup?_eq_some hlookup
    refine ⟨rfl, hlookup, fun j hj => ?_, fun j k y hjk hk => ?_⟩
    · obtain rfl : j = 0 := Nat.le_zero.1 hj
      exact fun h => hroot (Option.some.inj h)
    · omega

/-- One step up the chain of the base begins, with one more type that has been met. -/
theorem isLevel_succ (hroot : name ≠ root) (hstep : m.base? name = some a) :
    m.IsLevel root name (i + 1) t ↔ m.IsLevel root a i t ∧ m.Avoids [name] a i := by
  have hclimb : ∀ n, climb m.base? (n + 1) name = climb m.base? n a := by
    -- Where the chain is after a step more is where the chain of the base is.
    intro n
    simp [climb, hstep]
  constructor
  · rintro ⟨hreached, hdeclared, hbelow, hfresh⟩
    refine ⟨⟨hclimb i ▸ hreached, hdeclared, fun j hj => ?_, fun j k y hjk hk => ?_⟩, ?_⟩
    · rw [← hclimb]
      exact hbelow (j + 1) (Nat.succ_le_succ hj)
    · rw [← hclimb, ← hclimb]
      exact hfresh (j + 1) (k + 1) y (Nat.succ_lt_succ hjk) (Nat.succ_le_succ hk)
    · intro j hj y hy hname
      rw [List.mem_singleton.1 hname, ← hclimb] at hy
      exact hfresh 0 (j + 1) name (Nat.succ_pos j) (Nat.succ_le_succ hj) rfl hy
  · rintro ⟨⟨hreached, hdeclared, hbelow, hfresh⟩, havoids⟩
    refine ⟨hclimb i ▸ hreached, hdeclared, fun j hj => ?_, fun j k y hjk hk hj' => ?_⟩
    · cases j with
      | zero => exact fun h => hroot (Option.some.inj h)
      | succ j =>
        rw [hclimb]
        exact hbelow j (Nat.le_of_succ_le_succ hj)
    · obtain ⟨k, rfl⟩ : ∃ k', k = k' + 1 := ⟨k - 1, by omega⟩
      rw [hclimb]
      cases j with
      | zero =>
        -- The first type of all is not met again further up.
        obtain rfl : name = y := Option.some.inj hj'
        exact fun hk' => havoids k (Nat.le_of_succ_le_succ hk) name hk' (List.mem_singleton_self _)
      | succ j =>
        rw [hclimb] at hj'
        exact hfresh j k y (Nat.lt_of_succ_lt_succ hjk) (Nat.le_of_succ_le_succ hk) hj'

theorem avoids_succ (hstep : m.base? name = some a) :
    m.Avoids path name (i + 1) ↔ name ∉ path ∧ m.Avoids path a i := by
  have hclimb : ∀ n, climb m.base? (n + 1) name = climb m.base? n a := by
    -- The same shift by one step: the type itself is avoided first, its bases then.
    intro n
    simp [climb, hstep]
  constructor
  · intro h
    refine ⟨h 0 (Nat.zero_le _) name rfl, fun j hj y hy => ?_⟩
    exact h (j + 1) (Nat.succ_le_succ hj) y ((hclimb j).trans hy)
  · rintro ⟨hname, h⟩ j hj y hy
    cases j with
    | zero => exact Option.some.inj hy ▸ hname
    | succ j => exact h j (Nat.le_of_succ_le_succ hj) y ((hclimb j).symm.trans hy)

theorem avoids_zero : m.Avoids path name 0 ↔ name ∉ path := by
  constructor
  · exact fun h => h 0 (Nat.le_refl 0) name rfl
  · intro h j hj y hy
    obtain rfl : j = 0 := Nat.le_zero.1 hj
    exact Option.some.inj hy ▸ h

theorem avoids_cons : m.Avoids (y :: path) name i ↔ m.Avoids [y] name i ∧ m.Avoids path name i := by
  simp only [Avoids, List.mem_cons, List.not_mem_nil, or_false, not_or]
  constructor
  · exact fun h => ⟨fun j hj z hz => (h j hj z hz).1, fun j hj z hz => (h j hj z hz).2⟩
  · exact fun h j hj z hz => ⟨h.1 j hj z hz, h.2 j hj z hz⟩

/-- A step beyond a type without a base leads nowhere. -/
theorem not_isLevel_succ (hstep : m.base? name = none) : ¬ m.IsLevel root name (i + 1) t := by
  intro h
  have hreached := h.reached
  simp [climb, hstep] at hreached

/-- The levels of a chain that begins with some types met before, by induction on the derivation of
the chain. -/
theorem Chain.getElem? {levels : List TypeInfo} (h : m.Chain root path name levels) :
    levels[i]? = some t ↔ m.IsLevel root name i t ∧ m.Avoids path name i := by
  induction h generalizing i with
  | stop path name hstop =>
    -- The chain is over before it has begun.
    constructor
    · intro h
      simp at h
    · rintro ⟨hlevel, havoids⟩
      rcases hstop with rfl | hpath
      · exact absurd rfl (hlevel.below 0 (Nat.zero_le i))
      · exact absurd hpath (havoids 0 (Nat.zero_le i) name rfl)
  | undeclared path name hgo hlookup =>
    -- A name that is not declared has no level, as it stands for no type.
    constructor
    · intro h
      simp at h
    · rintro ⟨hlevel, -⟩
      cases i with
      | zero => simp [isLevel_zero, hlookup] at hlevel
      | succ i => exact absurd hlevel (not_isLevel_succ (by simp [base?, hlookup]))
  | top path name u hgo hlookup hbase =>
    obtain ⟨hroot, hpath⟩ := not_or.1 hgo
    cases i with
    | zero => simp [isLevel_zero, avoids_zero, hroot, hpath, hlookup]
    | succ i =>
      -- Above a type without a base there is nothing.
      constructor
      · intro h
        simp at h
      · rintro ⟨hlevel, -⟩
        exact absurd hlevel (not_isLevel_succ (by simp [base?, hlookup, hbase]))
  | climb path name u base levels hgo hlookup hbase hrest ih =>
    obtain ⟨hroot, hpath⟩ := not_or.1 hgo
    have hstep : m.base? name = some base := by simp [base?, hlookup, hbase]
    -- One level further up is one level of the chain of the base.
    cases i with
    | zero => simp [isLevel_zero, avoids_zero, hroot, hpath, hlookup]
    | succ i =>
      rw [List.getElem?_cons_succ, ih, isLevel_succ hroot hstep, avoids_succ hstep, avoids_cons]
      simp only [hpath, not_false_eq_true, true_and, and_assoc]

/-- **Levels**: the base chain of a type holds exactly the declarations up to the root, to the first
undeclared base or to the first repeated type. -/
theorem getElem?_baseChain : (m.baseChain root name)[i]? = some t ↔ m.IsLevel root name i t := by
  rw [(chain_baseChain m root name).getElem?]
  exact and_iff_left fun j _ y _ => List.not_mem_nil

/-! ## §2 Types above one another -/

/-- Different types do not derive from each other.  A type may be its own base. -/
def NoMutualBases (m : Module) : Prop :=
  ∀ x y i j, climb m.base? i x = some y → climb m.base? j y = some x → x = y

theorem Acyclic.noMutualBases (hm : m.Acyclic) : m.NoMutualBases := by
  intro x y i j hi hj
  -- The way from `x` by way of `y` leads back to `x`, so it has no steps.
  have hround := climb_from hi hj
  have hzero : i + j = 0 := by
    cases h : i + j with
    | zero => rfl
    | succ n => exact absurd (h ▸ hround) (hm x n)
  obtain rfl : i = 0 := by omega
  exact Option.some.inj hi

/-- Different types do not derive from each other if types have ranks that decrease towards their
bases, types that are their own bases apart. -/
theorem noMutualBases_of_rank (rank : String → Nat)
    (hrank : ∀ t ∈ m.types ++ m.imports, ∀ base, t.base = some base →
      base = t.fullName ∨ rank base < rank t.fullName) : m.NoMutualBases := by
  have hclimb : ∀ n x y, climb m.base? n x = some y → y = x ∨ rank y < rank x := by
    intro n
    induction n with
    | zero =>
      intro x y h
      exact .inl (Option.some.inj h).symm
    | succ n ih =>
      intro x y h
      obtain ⟨z, hz, hrest⟩ := Option.bind_eq_some_iff.1 h
      obtain ⟨t, ht, hbase⟩ := Option.bind_eq_some_iff.1 hz
      obtain ⟨hmem, rfl⟩ := lookup?_eq_some ht
      rcases hrank t hmem z hbase with rfl | hlt
      · exact ih _ y hrest
      · rcases ih z y hrest with rfl | hlt'
        · exact .inr hlt
        · exact .inr (Nat.lt_trans hlt' hlt)
  intro x y i j hi hj
  rcases hclimb i x y hi with heq | hlt
  · exact heq.symm
  · rcases hclimb j y x hj with heq | hlt'
    · exact heq
    · exact absurd hlt' (Nat.lt_asymm hlt)

/-- Two types above one another are the two ends of a way. -/
theorem climb_between (hi : climb m.base? i x = some y) (hj : climb m.base? j x = some a)
    (hle : i ≤ j) : climb m.base? (j - i) y = some a := by
  rw [show j = i + (j - i) by omega, climb_add, hi] at hj
  exact hj

/-- Of two subtypes of a type none is above the other, unless it is that type itself. -/
theorem NoMutualBases.eq_of_climb (hm : m.NoMutualBases) (hx : m.base? x = some a)
    (hy : m.base? y = some a) (hya : y ≠ a) (h : climb m.base? i x = some y) : x = y := by
  cases i with
  | zero => exact Option.some.inj h
  | succ i =>
    -- The way from `x` to `y` begins with the step to `a`, which `y` derives from.
    have hay : climb m.base? i a = some y := by simpa [climb, hx] using h
    exact absurd (hm a y i 1 hay (by rw [climb_one, hy])).symm hya

end Module

end SchemaGraph
