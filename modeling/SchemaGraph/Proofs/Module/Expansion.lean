import SchemaGraph.Proofs.Module.Inheritance

/-!
# Expanding Subtypes

The subtypes of a type told without a table: its direct subtypes, and then those of each of them,
along paths that do not come back to a type.  Each type is expanded anew wherever it is met, so this
is no way to find all subtypes of all types, but it is easily reasoned about.  Unless different
types derive from each other, the way to a type does not matter, and no subtype is met twice.

- `Module.mem_expansion_iff`: an expansion holds the types whose way up leads through own types
- `Module.NoMutualBases.expansion_eq`: the subtypes of a type, told by those of its direct subtypes
- `Module.NoMutualBases.nodup_expansion`: no subtype is listed twice
-/

namespace SchemaGraph

namespace Module

variable {m : Module} {path path' : List String} {name child x y a : String} {i j n fuel : Nat}

/-! ## §1 Paths -/

/-- The subtypes of `name` below the types of `path`: its direct subtypes, then those of each of
them in turn.  A type that is being expanded already is not expanded again. -/
def expand (m : Module) : (fuel : Nat) → (path : List String) → String → List String
  | 0, _, _ => []
  | fuel + 1, path, name =>
    let children := m.subtypesOf name
    children ++ children.flatMap fun child =>
      if child ∈ name :: path then [] else m.expand fuel (name :: path) child

/-- The subtypes of a type. -/
def expansion (m : Module) (name : String) : List String := m.expand (m.types.length + 1) [] name

theorem mem_own_of_mem_subtypesOf {child : String} (h : child ∈ m.subtypesOf name) :
    child ∈ m.types.map (·.fullName) := by
  obtain ⟨t, ht, rfl⟩ := List.mem_map.1 h
  exact List.mem_map_of_mem (List.mem_filter.1 ht).1

/-- The types that are being expanded are pairwise different and, but for the first one, own
types, so there are not too many of them. -/
theorem length_path_le (hnodup : (name :: path).Nodup)
    (hown : (name :: path).dropLast ⊆ m.types.map (·.fullName)) :
    path.length ≤ m.types.length := by
  have hlength := ((hnodup.sublist (List.dropLast_sublist _)).subperm hown).length_le
  rwa [List.length_dropLast, List.length_cons, List.length_map] at hlength

theorem dropLast_cons_subset {child : String} (hchild : child ∈ m.subtypesOf name)
    (hown : (name :: path).dropLast ⊆ m.types.map (·.fullName)) :
    (child :: name :: path).dropLast ⊆ m.types.map (·.fullName) := by
  rw [List.dropLast_cons_of_ne_nil (List.cons_ne_nil _ _)]
  exact List.cons_subset.2 ⟨mem_own_of_mem_subtypesOf hchild, hown⟩

/-! ## §2 Membership -/

theorem mem_expand_succ {fuel : Nat} {path : List String} :
    x ∈ m.expand (fuel + 1) path a ↔ x ∈ m.subtypesOf a ∨
      ∃ y ∈ m.subtypesOf a, y ∉ a :: path ∧ x ∈ m.expand fuel (a :: path) y := by
  simp only [expand, List.mem_append, List.mem_flatMap]
  refine or_congr_right (exists_congr fun y => and_congr_right fun _ => ?_)
  split
  · next h => simp [h]
  · next h => simp [h]

theorem climb_of_mem_expand (hdistinct : (m.types.map (·.fullName)).Nodup) {fuel : Nat}
    {path : List String} (h : x ∈ m.expand fuel path a) :
    ∃ n, climb m.ownBase? (n + 1) x = some a := by
  induction fuel generalizing path a with
  | zero => simp [expand] at h
  | succ fuel ih =>
    rcases mem_expand_succ.1 h with h | ⟨y, hy, -, h⟩
    · exact ⟨0, by rw [climb_one, (mem_subtypesOf_iff hdistinct).1 h]⟩
    · -- What lies below a subtype climbs to that subtype first.
      obtain ⟨n, hn⟩ := ih h
      refine ⟨n + 1, climb_from hn ?_⟩
      rw [climb_one, (mem_subtypesOf_iff hdistinct).1 hy]

/-- A simple way up is found from above, as long as it avoids the types that are being expanded
already. -/
theorem mem_expand_of_climb (hdistinct : (m.types.map (·.fullName)).Nodup) {fuel : Nat}
    {path : List String} (hfuel : n < fuel) (h : climb m.ownBase? (n + 1) x = some a)
    (hsimple : IsSimple m.ownBase? (n + 1) x)
    (hpath : ∀ i y, 0 < i → i ≤ n → climb m.ownBase? i x = some y → y ∉ path) :
    x ∈ m.expand fuel path a := by
  induction n generalizing fuel path a with
  | zero =>
    obtain ⟨fuel, rfl⟩ : ∃ k, fuel = k + 1 := ⟨fuel - 1, by omega⟩
    rw [climb_one] at h
    exact mem_expand_succ.2 (.inl ((mem_subtypesOf_iff hdistinct).2 h))
  | succ n ih =>
    obtain ⟨fuel, rfl⟩ : ∃ k, fuel = k + 1 := ⟨fuel - 1, by omega⟩
    -- The last step but one leads to a subtype `y` of `a`, which is expanded in turn.
    obtain ⟨y, b, hy, hstep, hb⟩ := exists_climb_of_lt h (Nat.lt_succ_self (n + 1))
    obtain rfl : b = a := by simpa [climb] using hb
    have hya : y ≠ b := by
      rintro rfl
      exact hsimple (n + 1) (n + 2) y (by omega) (by omega) (by omega) hy h
    refine mem_expand_succ.2 (.inr ⟨y, (mem_subtypesOf_iff hdistinct).2 hstep, ?_, ?_⟩)
    · simp [hya, hpath (n + 1) y (by omega) (by omega) hy]
    · refine ih (by omega) hy (fun i j z hij hj _ => hsimple i j z hij (by omega) (by omega)) ?_
      intro i z hi hin hz
      have hzb : z ≠ b := by
        rintro rfl
        exact hsimple i (n + 2) z (by omega) (by omega) (by omega) hz h
      simp [hzb, hpath i z hi (by omega) hz]

/-- The expansion holds the types whose way up leads through own types. -/
theorem mem_expansion_iff (hdistinct : (m.types.map (·.fullName)).Nodup) :
    x ∈ m.expansion a ↔ ∃ n, climb m.ownBase? (n + 1) x = some a := by
  constructor
  · exact climb_of_mem_expand hdistinct
  · rintro ⟨n, h⟩
    obtain ⟨k, hk, hsimple⟩ := exists_isSimple h
    have hlength := length_le_of_isSimple (fun y z => mem_own_of_ownBase?) hk hsimple
    rw [List.length_map] at hlength
    exact mem_expand_of_climb hdistinct (by omega) hk hsimple (by simp)

/-! ## §3 Subtypes without a path -/

/-- The type derives from all of the types, by way of own types only. -/
def IsBelow (m : Module) (name : String) (visiting : List String) : Prop :=
  ∀ y ∈ visiting, ∃ n, climb m.ownBase? (n + 1) name = some y

theorem isBelow_nil (m : Module) (name : String) : m.IsBelow name [] := fun _ h => nomatch h

theorem IsBelow.subtype (h : m.IsBelow name path) (hdistinct : (m.types.map (·.fullName)).Nodup)
    (hchild : child ∈ m.subtypesOf name) : m.IsBelow child (name :: path) := by
  have hstep : climb m.ownBase? 1 child = some name := by
    rw [climb_one, (mem_subtypesOf_iff hdistinct).1 hchild]
  intro y hy
  rcases List.mem_cons.1 hy with rfl | hy
  · exact ⟨0, hstep⟩
  · obtain ⟨n, hn⟩ := h y hy
    have hclimb := climb_from hstep hn
    rw [Nat.add_comm] at hclimb
    exact ⟨n + 1, hclimb⟩

/-- A subtype that is being expanded already is the very type whose subtypes are expanded. -/
theorem NoMutualBases.mem_path_iff (hm : m.NoMutualBases)
    (hdistinct : (m.types.map (·.fullName)).Nodup) (hbelow : m.IsBelow name path)
    (hchild : child ∈ m.subtypesOf name) : child ∈ name :: path ↔ child = name := by
  -- Were it another one, the two would be bases of each other.
  constructor
  · intro h
    rcases List.mem_cons.1 h with heq | h
    · exact heq
    · obtain ⟨n, hn⟩ := hbelow child h
      have hup : climb m.base? 1 child = some name := by
        rw [climb_one, base?_of_ownBase? ((mem_subtypesOf_iff hdistinct).1 hchild)]
      exact hm child name 1 (n + 1) hup (climb_base?_of_climb_ownBase? hn)
  · rintro rfl
    exact List.mem_cons_self

/-- Where the expansion has come from does not matter. -/
theorem NoMutualBases.expand_congr (hm : m.NoMutualBases)
    (hdistinct : (m.types.map (·.fullName)).Nodup) (h : m.IsBelow name path)
    (h' : m.IsBelow name path') : m.expand fuel path name = m.expand fuel path' name := by
  induction fuel generalizing path path' name with
  | zero => rfl
  | succ fuel ih =>
    rw [expand, expand]
    refine congrArg _ (List.flatMap_congr fun child hchild => ?_)
    have hopen := hm.mem_path_iff hdistinct h hchild
    have hopen' := hm.mem_path_iff hdistinct h' hchild
    simp only [hopen, hopen', ih (h.subtype hdistinct hchild) (h'.subtype hdistinct hchild)]

/-- More fuel changes nothing. -/
theorem expand_succ (hnodup : (name :: path).Nodup)
    (hown : (name :: path).dropLast ⊆ m.types.map (·.fullName))
    (hfuel : m.types.length < fuel + path.length) :
    m.expand (fuel + 1) path name = m.expand fuel path name := by
  induction fuel generalizing path name with
  | zero =>
    have hlength := length_path_le hnodup hown
    omega
  | succ fuel ih =>
    -- The paths agree child by child, and what is expanded is new on them.
    rw [expand, expand]
    refine congrArg _ (List.flatMap_congr fun child hchild => ?_)
    split
    next => rfl
    next hnew =>
      exact ih (List.nodup_cons.2 ⟨hnew, hnodup⟩) (dropLast_cons_subset hchild hown)
        (by rw [List.length_cons]; omega)

/-- **The subtypes of a type**: its direct subtypes, and then the subtypes of each of them. -/
theorem NoMutualBases.expansion_eq (hm : m.NoMutualBases)
    (hdistinct : (m.types.map (·.fullName)).Nodup) (name : String) :
    m.expansion name = m.subtypesOf name ++ (m.subtypesOf name).flatMap fun child =>
      if child = name then [] else m.expansion child := by
  rw [expansion, expand]
  refine congrArg _ (List.flatMap_congr fun child hchild => ?_)
  simp only [List.mem_singleton]
  split
  next => rfl
  next hne =>
    have hbelow := (m.isBelow_nil name).subtype hdistinct hchild
    calc m.expand m.types.length [name] child
        -- A bound that is larger by one gives the same, and so does the path that is left behind.
        = m.expand (m.types.length + 1) [name] child := by
          refine (expand_succ (by simpa using hne) ?_ (by simp)).symm
          simpa using mem_own_of_mem_subtypesOf hchild
      _ = m.expansion child := hm.expand_congr hdistinct hbelow (m.isBelow_nil child)

/-! ## §4 No repetition -/

theorem NoMutualBases.nodup_expand (hm : m.NoMutualBases)
    (hdistinct : (m.types.map (·.fullName)).Nodup) (fuel : Nat) (path : List String)
    (name : String) : (m.expand fuel path name).Nodup := by
  induction fuel generalizing path name with
  | zero => exact List.nodup_nil
  | succ fuel ih =>
    have hbase : ∀ child ∈ m.subtypesOf name, m.base? child = some name :=
      fun child hchild => base?_of_ownBase? ((mem_subtypesOf_iff hdistinct).1 hchild)
    -- What is found below a type climbs to it, through own and hence through all types.
    have habove : ∀ {x child path}, x ∈ m.expand fuel path child →
        ∃ n, climb m.base? (n + 1) x = some child := by
      intro x child path hx
      exact (climb_of_mem_expand hdistinct hx).imp fun n => climb_base?_of_climb_ownBase?
    have hchildren : (m.subtypesOf name).Nodup :=
      hdistinct.sublist ((List.filter_sublist).map _)
    -- A child is expanded unless it is the type itself, which is on the path.
    have hopen : ∀ {x child}, x ∈ (if child ∈ name :: path then []
        else m.expand fuel (name :: path) child) →
        child ≠ name ∧ x ∈ m.expand fuel (name :: path) child := by
      intro x child hx
      split at hx
      · cases hx
      · next hnew => exact ⟨fun heq => hnew (heq ▸ List.mem_cons_self), hx⟩
    rw [expand]
    refine hchildren.append (List.nodup_flatMap.2 ⟨fun child _ => ?_, ?_⟩) ?_
    · split
      · exact List.nodup_nil
      · exact ih _ child
    · -- What derives from two subtypes derives from one of them by way of the other.
      refine hchildren.imp_of_mem fun {c d} hc hd hne x hxc hxd => hne ?_
      obtain ⟨hcopen, hxc⟩ := hopen hxc
      obtain ⟨hdopen, hxd⟩ := hopen hxd
      obtain ⟨i, hi⟩ := habove hxc
      obtain ⟨j, hj⟩ := habove hxd
      rcases Nat.le_total (i + 1) (j + 1) with hij | hji
      · exact hm.eq_of_climb (hbase c hc) (hbase d hd) hdopen (climb_between hi hj hij)
      · exact (hm.eq_of_climb (hbase d hd) (hbase c hc) hcopen (climb_between hj hi hji)).symm
    · -- A subtype that derives from another one would be that one, and derive from itself.
      intro x hx hbelow
      obtain ⟨child, hchild, hxchild⟩ := List.mem_flatMap.1 hbelow
      obtain ⟨hchildopen, hxchild⟩ := hopen hxchild
      obtain ⟨i, hi⟩ := habove hxchild
      obtain rfl := hm.eq_of_climb (hbase x hx) (hbase child hchild) hchildopen hi
      have hup : climb m.base? i name = some x := by simpa [climb, hbase x hx] using hi
      exact hchildopen (hm x name 1 i (by rw [climb_one, hbase x hx]) hup)

/-- An expansion lists no subtype twice. -/
theorem NoMutualBases.nodup_expansion (hm : m.NoMutualBases)
    (hdistinct : (m.types.map (·.fullName)).Nodup) (name : String) :
    (m.expansion name).Nodup :=
  hm.nodup_expand hdistinct _ _ _

end Module

end SchemaGraph
