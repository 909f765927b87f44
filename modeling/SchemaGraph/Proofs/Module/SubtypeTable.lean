import SchemaGraph.Proofs.Merge.Interning
import SchemaGraph.Proofs.Module.Assignability
import SchemaGraph.Proofs.Module.Expansion
import SchemaGraph.Proofs.SortedMap

/-!
# The Table of Subtypes

A type that is met while it is being expanded counts as one without subtypes, and what was found for
it is noted for good, so what goes into the table of subtypes might depend on where the expansion
has come from.  It does so if different types derive from each other, and only then: a type that is
being expanded is otherwise met by itself alone.

- `Module.fills_subtypeTable`: the table is filled to the end, whatever the bound
- `Module.exists_own_of_mem_allSubtypes`: whatever is listed is an own type
- `Module.NoMutualBases.allSubtypes_eq`: the table lists what expanding each type anew would find
- `Module.subtypeTable_of_order`: the table is the same in whatever order it is filled
-/

namespace SchemaGraph

namespace Module

variable {m : Module} {visiting order names found listed : List String}
  {name child x y : String} {table table' table'' : SortedMap (List String)} {fuel : Nat}

/-! ## §1 Filling without a bound -/

/-- What is found for some types that are expanded one after the other, and the table afterwards.
A derivation is finite, so the expansion ends by itself. -/
inductive Fills (m : Module) : (visiting : List String) → SortedMap (List String) →
    (names found : List String) → SortedMap (List String) → Prop where
  | nil (visiting : List String) (table : SortedMap (List String)) :
    Fills m visiting table [] [] table
  | known (visiting : List String) (table table' : SortedMap (List String)) (name : String)
    (names listed found : List String) (hknown : table.get? name = some listed)
    (hrest : Fills m visiting table names found table') :
    Fills m visiting table (name :: names) (listed ++ found) table'
  | opened (visiting : List String) (table table' : SortedMap (List String)) (name : String)
    (names found : List String) (hnew : table.get? name = none) (hopen : name ∈ visiting)
    (hrest : Fills m visiting table names found table') :
    Fills m visiting table (name :: names) found table'
  | expanded (visiting : List String) (table between table' : SortedMap (List String))
    (name : String) (names below found : List String) (hnew : table.get? name = none)
    (hclosed : name ∉ visiting)
    (hbelow : Fills m (name :: visiting) table (m.subtypesOf name) below between)
    (hrest : Fills m visiting (between.insert name (m.subtypesOf name ++ below)) names found
      table') :
    Fills m visiting table (name :: names) (m.subtypesOf name ++ below ++ found) table'

/-- Of the types with subtypes, those that are not being expanded. -/
def pendingBases (m : Module) (visiting : List String) : List String :=
  m.indexedBases.filter (· ∉ visiting)

theorem mem_indexedBases_of_mem_subtypesOf (h : child ∈ m.subtypesOf name) :
    name ∈ m.indexedBases := by
  obtain ⟨t, ht, -⟩ := List.mem_map.1 h
  obtain ⟨hmem, hbase⟩ := List.mem_filter.1 ht
  exact (mem_distinct _ _).2 (List.mem_filterMap.2 ⟨t, hmem, of_decide_eq_true hbase⟩)

/-- Expanding a type that has subtypes leaves one less to be expanded. -/
theorem length_pendingBases_lt (h : child ∈ m.subtypesOf name) (hnew : name ∉ visiting) :
    (m.pendingBases (name :: visiting)).length < (m.pendingBases visiting).length := by
  have hfilter : m.pendingBases (name :: visiting) =
      (m.pendingBases visiting).filter (· ≠ name) := by
    simp [pendingBases, List.filter_filter]
  rw [hfilter, List.length_filter_lt_length_iff_exists]
  refine ⟨name, List.mem_filter.2 ⟨mem_indexedBases_of_mem_subtypesOf h, by simpa using hnew⟩, ?_⟩
  simp

/-- **The bound is not met**: it is larger than the number of types that can be expanded inside one
another. -/
theorem fills_findEach (hfuel : (m.pendingBases visiting).length < fuel)
    (table : SortedMap (List String)) (names : List String) :
    m.Fills visiting table names (findEach (m.fill fuel visiting) table names).1
      (findEach (m.fill fuel visiting) table names).2 := by
  induction fuel generalizing visiting table names with
  | zero => omega
  | succ fuel ih =>
    induction names generalizing table with
    | nil => exact .nil visiting table
    | cons name names ihnames =>
      rw [findEach]
      cases hknown : table.get? name with
      -- The type has been expanded before, and the table has it.
      | some listed =>
        have hfirst : m.fill (fuel + 1) visiting table name = (listed, table) := by
          rw [fill, hknown]
        rw [hfirst]
        exact .known visiting table _ name names listed _ hknown (ihnames table)
      | none =>
        by_cases hopen : name ∈ visiting
        · have hfirst : m.fill (fuel + 1) visiting table name = ([], table) := by
            simp only [fill, hknown, if_pos hopen]
          rw [hfirst]
          exact .opened visiting table _ name names _ hknown hopen (ihnames table)
        -- The type is expanded: inside it one type less can be expanded than before.
        · have hbelow : m.Fills (name :: visiting) table (m.subtypesOf name)
              (findEach (m.fill fuel (name :: visiting)) table (m.subtypesOf name)).1
              (findEach (m.fill fuel (name :: visiting)) table (m.subtypesOf name)).2 := by
            cases hchildren : m.subtypesOf name with
            | nil => exact .nil _ table
            | cons child children =>
              have hlt := length_pendingBases_lt (hchildren ▸ List.mem_cons_self) hopen
              exact ih (by omega) table (child :: children)
          simp only [fill, hknown, if_neg hopen]
          exact .expanded visiting table _ _ name names _ _ hknown hopen hbelow (ihnames _)

/-- **The table is filled to the end.** -/
theorem fills_subtypeTable (m : Module) (order : List String) :
    ∃ found, m.Fills [] .empty order found (m.subtypeTable order) := by
  have hfuel : (m.pendingBases []).length < m.indexedBases.length + 1 :=
    Nat.lt_succ_of_le (List.length_filter_le _ _)
  exact ⟨_, fills_findEach hfuel .empty order⟩

/-! ## §2 What is listed -/

/-- Whatever the table lists is a subtype of some type. -/
def ListsSubtypes (m : Module) (table : SortedMap (List String)) : Prop :=
  ∀ name listed, table.get? name = some listed → ∀ x ∈ listed, ∃ base, x ∈ m.subtypesOf base

theorem Fills.listsSubtypes (h : m.Fills visiting table names found table')
    (htable : m.ListsSubtypes table) :
    (∀ x ∈ found, ∃ base, x ∈ m.subtypesOf base) ∧ m.ListsSubtypes table' := by
  -- What is listed was found below some type before, or is found below the one that is expanded.
  induction h with
  | nil visiting table => exact ⟨fun x hx => (nomatch hx), htable⟩
  | known visiting table table' name names listed found hknown hrest ih =>
    obtain ⟨hfound, hlists⟩ := ih htable
    exact ⟨List.forall_mem_append.2 ⟨htable name listed hknown, hfound⟩, hlists⟩
  | opened visiting table table' name names found hnew hopen hrest ih => exact ih htable
  | expanded visiting table between table' name names below found hnew hclosed hbelow hrest ihbelow
      ihrest =>
    obtain ⟨hbelow', hbetween⟩ := ihbelow htable
    -- A type that is expanded lists its direct subtypes and what was found below them.
    have hlisted : ∀ x ∈ m.subtypesOf name ++ below, ∃ base, x ∈ m.subtypesOf base :=
      List.forall_mem_append.2 ⟨fun x hx => ⟨name, hx⟩, hbelow'⟩
    have hinserted : m.ListsSubtypes (between.insert name (m.subtypesOf name ++ below)) := by
      intro y listed hy
      rw [SortedMap.get?_insert] at hy
      split at hy
      · exact Option.some.inj hy ▸ hlisted
      · exact hbetween y listed hy
    obtain ⟨hfound, hlists⟩ := ihrest hinserted
    exact ⟨List.forall_mem_append.2 ⟨hlisted, hfound⟩, hlists⟩

/-- **Subtypes have bases**, and these are bases of own types. -/
theorem exists_mem_subtypesOf_of_mem_allSubtypes (h : x ∈ m.allSubtypes y) :
    ∃ base, x ∈ m.subtypesOf base := by
  obtain ⟨found, hfills⟩ := m.fills_subtypeTable m.order
  obtain ⟨-, hlists⟩ := hfills.listsSubtypes (fun _ _ h => nomatch h)
  rw [allSubtypes, listedIn] at h
  cases hlookup : (m.subtypeTable m.order).get? y with
  | none =>
    rw [hlookup] at h
    cases h
  | some listed =>
    rw [hlookup] at h
    exact hlists y listed hlookup x h

theorem exists_own_of_mem_allSubtypes (h : x ∈ m.allSubtypes y) :
    ∃ t ∈ m.types, t.fullName = x ∧ m.lookup? x = some t := by
  obtain ⟨base, hbase⟩ := exists_mem_subtypesOf_of_mem_allSubtypes h
  exact exists_own_of_mem (mem_own_of_mem_subtypesOf hbase)

theorem exists_base?_of_mem_allSubtypes (hdistinct : (m.types.map (·.fullName)).Nodup)
    (h : x ∈ m.allSubtypes y) : ∃ base, m.base? x = some base := by
  obtain ⟨base, hbase⟩ := exists_mem_subtypesOf_of_mem_allSubtypes h
  exact ⟨base, base?_of_ownBase? ((mem_subtypesOf_iff hdistinct).1 hbase)⟩

/-! ## §3 Tables that are right -/

/-- What the table lists is right, and it lists nothing yet for types that are being expanded. -/
structure IsRight (m : Module) (visiting : List String) (table : SortedMap (List String)) :
    Prop where
  listed : ∀ name listed, table.get? name = some listed → listed = m.expansion name
  opened : ∀ name ∈ visiting, table.get? name = none

/-- The table lists something for every type for which it did so before. -/
def Grows (table table' : SortedMap (List String)) : Prop :=
  ∀ name, table.contains name = true → table'.contains name = true

theorem Grows.trans (h : Grows table table') (h' : Grows table' table'') : Grows table table'' :=
  fun name hname => h' name (h name hname)

theorem grows_insert (table : SortedMap (List String)) (name : String) (listed : List String) :
    Grows table (table.insert name listed) := by
  intro x hx
  rw [SortedMap.contains, SortedMap.get?_insert]
  split
  · rfl
  · exact hx

/-- Expanding types finds their subtypes, but for those that are being expanded already, and keeps
the table right. -/
structure FillsRightly (m : Module) (visiting : List String) (table : SortedMap (List String))
    (names found : List String) (table' : SortedMap (List String)) : Prop where
  found : found = names.flatMap fun name => if name ∈ visiting then [] else m.expansion name
  right : m.IsRight visiting table'
  grows : Grows table table'
  noted : ∀ name ∈ names, name ∉ visiting → table'.contains name = true

/-- A type that was expanded before the others, or was known or under way. -/
theorem FillsRightly.cons (h : m.FillsRightly visiting table' names found table'')
    (hlisted : listed = if name ∈ visiting then [] else m.expansion name)
    (hgrows : Grows table table') (hnoted : name ∉ visiting → table'.contains name = true) :
    m.FillsRightly visiting table (name :: names) (listed ++ found) table'' where
  found := by rw [List.flatMap_cons, hlisted, h.found]
  right := h.right
  grows := hgrows.trans h.grows
  noted := List.forall_mem_cons.2 ⟨fun hclosed => h.grows name (hnoted hclosed), h.noted⟩

/-- What was found below a type goes into the table. -/
theorem IsRight.insert (h : m.IsRight (name :: visiting) table) (hclosed : name ∉ visiting)
    (hlisted : listed = m.expansion name) : m.IsRight visiting (table.insert name listed) where
  listed x listed' hx := by
    rw [SortedMap.get?_insert] at hx
    split at hx
    next heq => exact heq ▸ (Option.some.inj hx).symm.trans hlisted
    next => exact h.listed x listed' hx
  opened x hx := by
    have hne : ¬ name = x := fun heq => hclosed (heq ▸ hx)
    rw [SortedMap.get?_insert, if_neg hne]
    exact h.opened x (List.mem_cons_of_mem _ hx)

/-- **Filling keeps the table right**, by induction on how it goes on.  A type is met on the way
down from those that are being expanded, so it derives from all of them. -/
theorem NoMutualBases.fillsRightly (hm : m.NoMutualBases)
    (hdistinct : (m.types.map (·.fullName)).Nodup)
    (h : m.Fills visiting table names found table')
    (hbelow : ∀ name ∈ names, m.IsBelow name visiting) (hright : m.IsRight visiting table) :
    m.FillsRightly visiting table names found table' := by
  induction h with
  | nil visiting table => exact ⟨rfl, hright, fun _ hx => hx, fun _ hx => nomatch hx⟩
  | known visiting table table' name names listed found hknown hrest ih =>
    have hclosed : name ∉ visiting := by
      intro hopen
      rw [hright.opened name hopen] at hknown
      cases hknown
    refine (ih (List.forall_mem_cons.1 hbelow).2 hright).cons ?_ (fun _ hx => hx) fun _ => ?_
    · rw [if_neg hclosed]
      exact hright.listed name listed hknown
    · rw [SortedMap.contains, hknown]
      rfl
  | opened visiting table table' name names found hnew hopen hrest ih =>
    have hnothing : [] = if name ∈ visiting then [] else m.expansion name := (if_pos hopen).symm
    exact (ih (List.forall_mem_cons.1 hbelow).2 hright).cons hnothing (fun _ hx => hx)
      fun hclosed => absurd hopen hclosed
  | expanded visiting table between table' name names below found hnew hclosed hbelow' hrest
      ihbelow ihrest =>
    obtain ⟨hname, hnames⟩ := List.forall_mem_cons.1 hbelow
    have hinside : m.IsRight (name :: visiting) table :=
      ⟨hright.listed, List.forall_mem_cons.2 ⟨hnew, hright.opened⟩⟩
    have hfills := ihbelow (fun child hchild => hname.subtype hdistinct hchild) hinside
    have hlisted : m.subtypesOf name ++ below = m.expansion name := by
      rw [hfills.found, hm.expansion_eq hdistinct]
      refine congrArg _ (List.flatMap_congr fun child hchild => ?_)
      simp only [hm.mem_path_iff hdistinct hname hchild]
    have hinserted := hfills.right.insert hclosed hlisted
    refine (ihrest hnames hinserted).cons (hlisted.trans (if_neg hclosed).symm)
      (hfills.grows.trans (grows_insert _ _ _)) fun _ => ?_
    rw [SortedMap.contains, SortedMap.get?_insert, if_pos rfl]
    rfl

/-! ## §4 Any order -/

theorem NoMutualBases.listedIn_subtypeTable (hm : m.NoMutualBases)
    (hdistinct : (m.types.map (·.fullName)).Nodup) (horder : order.Perm m.indexedBases)
    (name : String) : listedIn (m.subtypeTable order) name = m.expansion name := by
  have hempty : m.IsRight [] .empty := ⟨fun _ _ h => (nomatch h), fun _ h => nomatch h⟩
  obtain ⟨found, hfills⟩ := m.fills_subtypeTable order
  have hrightly := hm.fillsRightly hdistinct hfills (fun name _ => m.isBelow_nil name) hempty
  rw [listedIn]
  cases hlookup : (m.subtypeTable order).get? name with
  | some listed => exact hrightly.right.listed name listed hlookup
  | none =>
    -- The type has not been expanded, so no own type has it as its base.
    have hnoChild : m.subtypesOf name = [] := by
      refine List.eq_nil_iff_forall_not_mem.2 fun child hchild => ?_
      have hmem := horder.mem_iff.2 (mem_indexedBases_of_mem_subtypesOf hchild)
      have hcontains := hrightly.noted name hmem List.not_mem_nil
      rw [SortedMap.contains, hlookup] at hcontains
      cases hcontains
    rw [hm.expansion_eq hdistinct, hnoChild]
    rfl

/-- **The table lists** what expanding each type anew would find. -/
theorem NoMutualBases.allSubtypes_eq (hm : m.NoMutualBases)
    (hdistinct : (m.types.map (·.fullName)).Nodup) : m.allSubtypes = m.expansion :=
  funext fun name => hm.listedIn_subtypeTable hdistinct m.ordered name

/-- **The walk downwards**: the table holds the types whose way up leads through own types. -/
theorem NoMutualBases.mem_allSubtypes_iff (hm : m.NoMutualBases)
    (hdistinct : (m.types.map (·.fullName)).Nodup) :
    x ∈ m.allSubtypes y ↔ ∃ n, climb m.ownBase? (n + 1) x = some y := by
  rw [hm.allSubtypes_eq hdistinct, mem_expansion_iff hdistinct]

/-- **No subtype is listed twice.** -/
theorem NoMutualBases.nodup_allSubtypes (hm : m.NoMutualBases)
    (hdistinct : (m.types.map (·.fullName)).Nodup) (name : String) :
    (m.allSubtypes name).Nodup := by
  rw [hm.allSubtypes_eq hdistinct]
  exact hm.nodup_expansion hdistinct name

/-- The own type has the base. -/
def HasOwnBase (m : Module) (name base : String) : Prop :=
  ∃ t ∈ m.types, t.fullName = name ∧ t.base = some base

theorem ownBase?_eq_some_iff (hdistinct : (m.types.map (·.fullName)).Nodup) :
    m.ownBase? x = some y ↔ m.HasOwnBase x y := by
  simp only [ownBase?, Option.bind_eq_some_iff, lastNamed?_eq_some_iff hdistinct, HasOwnBase,
    and_assoc]

theorem NoMutualBases.mem_allSubtypes_iff_transGen (hm : m.NoMutualBases)
    (hdistinct : (m.types.map (·.fullName)).Nodup) :
    x ∈ m.allSubtypes y ↔ Relation.TransGen m.HasOwnBase x y := by
  have hsteps : (fun y z => m.ownBase? y = some z) = m.HasOwnBase := by
    funext y z
    exact propext (ownBase?_eq_some_iff hdistinct)
  rw [hm.mem_allSubtypes_iff hdistinct, Relation.TransGen.head'_iff, ← hsteps]
  constructor
  · rintro ⟨n, h⟩
    obtain ⟨z, hz, h⟩ := Option.bind_eq_some_iff.1 h
    exact ⟨z, hz, exists_climb_iff.1 ⟨n, h⟩⟩
  · rintro ⟨z, hz, h⟩
    obtain ⟨n, hn⟩ := exists_climb_iff.2 h
    exact ⟨n, Option.bind_eq_some_iff.2 ⟨z, hz, hn⟩⟩

/-- **The table does not depend on the order** in which types are expanded: it lists all subtypes of
every type, its direct subtypes in the order of their declaration and then, for each of them but the
type itself, what it lists for that one.  No subtype is listed twice, and listed are exactly the own
types whose bases lead to the type through own types. -/
theorem subtypeTable_of_order (hdistinct : (m.types.map (·.fullName)).Nodup)
    (hbases : m.NoMutualBases) (horder : order.Perm m.indexedBases) (name : String) :
    let listed := listedIn (m.subtypeTable order)
    listed name = m.allSubtypes name
      ∧ (listed name = m.subtypesOf name ++ (m.subtypesOf name).flatMap fun child =>
          if child = name then [] else listed child)
      ∧ (listed name).Nodup
      ∧ ∀ x, x ∈ listed name ↔ Relation.TransGen m.HasOwnBase x name := by
  intro listed
  have hexpansion := hbases.allSubtypes_eq hdistinct
  have hlisted : listed = m.allSubtypes :=
    hexpansion ▸ funext fun x => hbases.listedIn_subtypeTable hdistinct horder x
  rw [hlisted]
  refine ⟨rfl, ?_, hbases.nodup_allSubtypes hdistinct name,
    fun x => hbases.mem_allSubtypes_iff_transGen hdistinct⟩
  rw [hexpansion]
  exact hbases.expansion_eq hdistinct name

/-- A root that is its own base, and below it a branch with a twig. -/
def plant : Module := .ofManifest "plant.json"
  { types :=
      [(TypeInfo.ofClass "Mod.Twig").withBase "Mod.Branch",
        (TypeInfo.ofClass "Mod.Root").withBase "Mod.Root",
        (TypeInfo.ofClass "Mod.Branch").withBase "Mod.Root",
        (TypeInfo.ofClass "Mod.Moss").withBase "Wood.Growth"] }

theorem noMutualBases_plant : plant.NoMutualBases := by
  have hrank : ∀ t ∈ plant.types ++ plant.imports, t.base.all fun base =>
      decide (base = t.fullName
        ∨ ["Wood.Growth", "Mod.Root", "Mod.Branch"].idxOf base
          < ["Wood.Growth", "Mod.Root", "Mod.Branch"].idxOf t.fullName) := by
    decide
  refine noMutualBases_of_rank (["Wood.Growth", "Mod.Root", "Mod.Branch"].idxOf ·) ?_
  intro t ht base hbase
  simpa [hbase] using hrank t ht

/-- The branch may be expanded before the root, or after it. -/
def plantOrders : List (List String) :=
  [["Mod.Branch", "Wood.Growth", "Mod.Root"], ["Mod.Root", "Mod.Branch", "Wood.Growth"]]

/-- What is listed for the root is the same in both orders. -/
theorem subtypeTable_plant :
    (plant.types.map (·.fullName)).Nodup ∧ plant.NoMutualBases
      ∧ ∀ order ∈ plantOrders, order.Perm plant.indexedBases
          ∧ (listedIn (plant.subtypeTable order) "Mod.Root" =
              ["Mod.Root", "Mod.Branch", "Mod.Twig"])
          ∧ ∀ x, x ∈ listedIn (plant.subtypeTable order) "Mod.Root" ↔
              Relation.TransGen plant.HasOwnBase x "Mod.Root" := by
  have hdistinct : (plant.types.map (·.fullName)).Nodup := by decide
  have horders : ∀ order ∈ plantOrders, order.Perm plant.indexedBases := by decide
  have hroot : plant.allSubtypes "Mod.Root" = ["Mod.Root", "Mod.Branch", "Mod.Twig"] := by
    decide
  refine ⟨hdistinct, noMutualBases_plant, fun order horder => ?_⟩
  obtain ⟨hlisted, -, -, hmem⟩ := subtypeTable_of_order hdistinct noMutualBases_plant
    (horders order horder) "Mod.Root"
  exact ⟨horders order horder, hlisted.trans hroot, hmem⟩

/-- Two types that are each other's base. -/
def knot : Module := .ofManifest "knot.json"
  { types :=
      [(TypeInfo.ofClass "Mod.Rope").withBase "Mod.Loop",
        (TypeInfo.ofClass "Mod.Loop").withBase "Mod.Rope"] }

-- The base that is expanded first is the one that is listed below itself.
example :
    (["Mod.Rope", "Mod.Loop"].map (listedIn (knot.subtypeTable ["Mod.Rope", "Mod.Loop"])),
      ["Mod.Rope", "Mod.Loop"].map (listedIn (knot.subtypeTable ["Mod.Loop", "Mod.Rope"]))) =
        ([["Mod.Loop", "Mod.Rope"], ["Mod.Rope"]], [["Mod.Loop"], ["Mod.Rope", "Mod.Loop"]]) := by
  decide

end Module

end SchemaGraph
