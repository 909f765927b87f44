import SchemaGraph.Proofs.Extraction.Questions
import SchemaGraph.Proofs.Extraction.Session
import SchemaGraph.Proofs.Merge.Interning
import SchemaGraph.Proofs.Module.Inheritance

/-!
# Flattening

The fields of a type are found by walking up its base chain.  Every member that belongs to instances
is met at a *place*, the level and the position in the declaration; of several members with a name
the one that is met first makes the field.  What else a session does while it flattens a type, and
what it has done before, has no say in which members these are.

- `Pass.MetAt`, `Pass.FirstMet`: the walk, said of the declarations
- `Pass.shownMembers`: the members that are not shadowed, in the order of the walk
- `Pass.alike_flattenLevels`: flattening is classifying these members one after the other
- `Pass.flatten_mostDerivedFirst`: the fields of a type, in every state of every session
-/

namespace SchemaGraph

/-! ## §1 Members -/

/-- A member that belongs to instances and can be set. -/
structure Member.Kept (m : Member) : Prop where
  notStatic : m.isStatic = false
  notGenerated : m.compilerGenerated = false
  noOpening : '<' ∉ m.name.toList
  noClosing : '>' ∉ m.name.toList
  settable : m.kind = .field ∨ m.writable = true

theorem Member.isInstanceMember_iff {m : Member} : m.isInstanceMember = true ↔ m.Kept := by
  simp only [isInstanceMember, Bool.and_eq_true, Bool.or_eq_true, Bool.not_eq_true',
    decide_eq_true_eq, List.contains_eq_mem, decide_eq_false_iff_not]
  constructor
  · rintro ⟨⟨⟨⟨hstatic, hgenerated⟩, hopening⟩, hclosing⟩, hsettable⟩
    exact ⟨hstatic, hgenerated, hopening, hclosing, hsettable⟩
  · rintro ⟨hstatic, hgenerated, hopening, hclosing, hsettable⟩
    exact ⟨⟨⟨⟨hstatic, hgenerated⟩, hopening⟩, hclosing⟩, hsettable⟩

namespace Pass

variable {p : Pass} {fullName : String} {t : TypeInfo} {m : Member} {place : Nat × Nat}

/-! ## §2 The walk -/

/-- One place comes before another on the walk: on a lower level, or earlier in the declaration. -/
def Before (a b : Nat × Nat) : Prop := a.1 < b.1 ∨ a.1 = b.1 ∧ a.2 < b.2

theorem not_before_of_before {a b : Nat × Nat} (h : Before a b) : ¬ Before b a := by
  unfold Before at h ⊢
  omega

/-- Walking up from a type, the member is met at the place: it is kept, it stands at that position
of that level, and the level is not in a banned namespace. -/
def MetAt (p : Pass) (fullName : String) (place : Nat × Nat) (m : Member) : Prop :=
  ∃ t, p.module.IsLevel p.conventions.universalRoot fullName place.1 t
    ∧ p.conventions.isBanned t.fullName = false ∧ t.members[place.2]? = some m ∧ m.Kept

/-- The member is met at the place, and no member of its name is met before. -/
def FirstMet (p : Pass) (fullName : String) (place : Nat × Nat) (m : Member) : Prop :=
  p.MetAt fullName place m
    ∧ ∀ place' m', p.MetAt fullName place' m' → m'.name = m.name → ¬ Before place' place

/-- The members that a level contributes. -/
def keptMembers (p : Pass) (t : TypeInfo) : List Member :=
  if p.conventions.isBanned t.fullName then [] else t.members.filter Member.isInstanceMember

/-- The members that are met on the walk up from a type, shadowed ones included. -/
def metMembers (p : Pass) (fullName : String) : List Member :=
  (p.module.baseChain p.conventions.universalRoot fullName).flatMap p.keptMembers

/-- The members of a type that are not shadowed, its own before those it inherits. -/
def shownMembers (p : Pass) (fullName : String) : List Member :=
  newcomers (·.name) [] (p.metMembers fullName)

/-- The names of the fields of a type, in order. -/
def fieldNames (p : Pass) (fullName : String) : List String :=
  (p.shownMembers fullName).map (·.name)

/-- The members that a level contributes, each with its position. -/
def keptPlaces (p : Pass) (t : TypeInfo) : List (Member × Nat) :=
  if p.conventions.isBanned t.fullName then []
  else t.members.zipIdx.filter fun (m, _) => m.isInstanceMember

/-- The members that are met on the walk, each with its place. -/
def metPlaces (p : Pass) (fullName : String) : List ((Nat × Nat) × Member) :=
  (p.module.baseChain p.conventions.universalRoot fullName).zipIdx.flatMap fun (t, i) =>
    (p.keptPlaces t).map fun (m, k) => ((i, k), m)

theorem map_fst_keptPlaces (p : Pass) (t : TypeInfo) :
    (p.keptPlaces t).map Prod.fst = p.keptMembers t := by
  unfold keptPlaces keptMembers
  split
  · rfl
  · have hfilter := List.filter_map (f := Prod.fst) (p := Member.isInstanceMember)
      (l := t.members.zipIdx)
    rw [List.zipIdx_map_fst] at hfilter
    exact hfilter.symm

/-- Without the places, these are the members that are met. -/
theorem map_snd_metPlaces (p : Pass) (fullName : String) :
    (p.metPlaces fullName).map Prod.snd = p.metMembers fullName := by
  have hlevel : ∀ x : TypeInfo × Nat,
      ((p.keptPlaces x.1).map fun (m, k) => ((x.2, k), m)).map Prod.snd = p.keptMembers x.1 := by
    intro x
    rw [List.map_map, ← map_fst_keptPlaces]
    rfl
  unfold metPlaces metMembers
  rw [List.map_flatMap]
  conv_rhs => rw [← List.zipIdx_map_fst 0 (p.module.baseChain _ _), List.flatMap_map]
  exact List.flatMap_congr fun x _ => hlevel x

theorem mem_metPlaces : (place, m) ∈ p.metPlaces fullName ↔ p.MetAt fullName place m := by
  obtain ⟨i, k⟩ := place
  -- A level contributes the instance members that it keeps, and a banned type contributes nothing.
  have hlevel : ∀ t, (m, k) ∈ p.keptPlaces t ↔
      p.conventions.isBanned t.fullName = false ∧ t.members[k]? = some m ∧ m.Kept := by
    intro t
    unfold keptPlaces
    split
    next hbanned => simp [hbanned]
    next hbanned =>
      simp [List.mem_filter, List.mem_zipIdx_iff_getElem?, Member.isInstanceMember_iff, hbanned]
  simp only [metPlaces, List.mem_flatMap, Prod.exists, List.mem_map, List.mem_zipIdx_iff_getElem?,
    Module.getElem?_baseChain, Prod.mk.injEq]
  constructor
  · rintro ⟨t, i', ht, m', k', hm, ⟨rfl, rfl⟩, rfl⟩
    exact ⟨t, ht, (hlevel t).1 hm⟩
  · rintro ⟨t, ht, hm⟩
    exact ⟨t, i, ht, m, k, (hlevel t).2 hm, ⟨rfl, rfl⟩, rfl⟩

/-- The positions of a list increase. -/
theorem pairwise_zipIdx {α : Type} (xs : List α) (n : Nat) :
    (xs.zipIdx n).Pairwise fun a b => a.2 < b.2 := by
  induction xs generalizing n with
  | nil => exact .nil
  | cons x xs ih =>
    rw [List.zipIdx_cons]
    refine .cons (fun b hb => ?_) (ih (n + 1))
    have hle := List.le_snd_of_mem_zipIdx hb
    exact hle

/-- The walk meets the members in the order of their places. -/
theorem pairwise_metPlaces (p : Pass) (fullName : String) :
    (p.metPlaces fullName).Pairwise fun a b => Before a.1 b.1 := by
  unfold metPlaces
  refine List.pairwise_flatMap.2 ⟨fun x _ => ?_, (pairwise_zipIdx _ 0).imp fun hlt a ha b hb => ?_⟩
  · -- Within a level the positions increase.
    refine List.pairwise_map.2 ?_
    unfold keptPlaces
    split
    · exact .nil
    · exact ((pairwise_zipIdx x.1.members 0).filter _).imp fun hlt => .inr ⟨rfl, hlt⟩
  -- Of two levels, the one that is met first has the smaller position.
  · obtain ⟨-, -, rfl⟩ := List.mem_map.1 ha
    obtain ⟨-, -, rfl⟩ := List.mem_map.1 hb
    exact .inl hlt

/-- The members that are not shadowed are those that are met first, in the order of the walk. -/
theorem exists_places (p : Pass) (fullName : String) :
    ∃ places, List.Forall₂ (p.FirstMet fullName) places (p.shownMembers fullName)
      ∧ places.Pairwise Before := by
  let shown := newcomers (Member.name ∘ Prod.snd) [] (p.metPlaces fullName)
  have hshown : p.shownMembers fullName = shown.map Prod.snd := by
    rw [shownMembers, ← map_snd_metPlaces, newcomers_map]
  -- The walk is in order, so what is left of it after shadowing is in order, too.
  have hordered := p.pairwise_metPlaces fullName
  refine ⟨shown.map Prod.fst, ?_, ?_⟩
  · rw [hshown, List.forall₂_map_left_iff, List.forall₂_map_right_iff, List.forall₂_same]
    rintro ⟨place, m⟩ hm
    refine ⟨mem_metPlaces.1 (mem_of_mem_newcomers hm), fun place' m' hmet hname hbefore => ?_⟩
    -- Whatever has the same name is met at the same place or later.
    have hle := eq_or_rel_of_mem_newcomers hordered hm (mem_metPlaces.2 hmet) hname
    rcases hle with heq | hlater
    · obtain ⟨rfl, -⟩ := Prod.mk.inj heq
      exact not_before_of_before hbefore hbefore
    · exact not_before_of_before hlater hbefore
  · exact List.pairwise_map.2 (hordered.sublist (newcomers_sublist _ _ _))

/-- The fields have the names of all members that are met. -/
theorem mem_fieldNames {name : String} :
    name ∈ p.fieldNames fullName ↔ ∃ place m, p.MetAt fullName place m ∧ m.name = name := by
  have hnames : name ∈ p.fieldNames fullName ↔ name ∈ (p.metMembers fullName).map (·.name) := by
    rw [fieldNames, shownMembers, mem_map_newcomers]
    exact and_iff_left List.not_mem_nil
  rw [hnames, ← map_snd_metPlaces]
  simp only [List.map_map, List.mem_map, Prod.exists, Function.comp_apply, mem_metPlaces]

theorem nodup_fieldNames (p : Pass) (fullName : String) : (p.fieldNames fullName).Nodup :=
  nodup_map_newcomers _ _ _

/-! ## §3 Levels that can be read -/

/-- The record of a level holds the members that it contributes. -/
theorem introspect_eq_ok (hlookup : p.module.lookup? fullName = some t) {record : TypeRecord}
    (h : p.module.introspect p.conventions fullName = .ok record) :
    t.loadError = none ∧ record.members = p.keptMembers t := by
  obtain ⟨-, rfl⟩ := Module.lookup?_eq_some hlookup
  unfold Module.introspect at h
  rw [hlookup] at h
  cases hload : t.loadError with
  | some reason => simp [hload] at h
  | none =>
    -- A readable type has the members of its declaration, but for those that are not kept.
    simp only [hload, Except.ok.injEq] at h
    refine ⟨rfl, ?_⟩
    rw [← h, keptMembers]
    split <;> rfl

theorem introspect_of_readable (hlookup : p.module.lookup? fullName = some t)
    (hload : t.loadError = none) :
    ∃ record, p.module.introspect p.conventions fullName = .ok record := by
  simp only [Module.introspect, hlookup, hload]
  exact ⟨_, rfl⟩

/-- The levels can all be read, and what they contribute is what is not shadowed. -/
theorem membersOf_eq_some {taken : List String} {levels : List TypeInfo} {members : List Member}
    (hlevels : ∀ t ∈ levels, p.module.lookup? t.fullName = some t) :
    p.membersOf taken levels = some members ↔
      (∀ t ∈ levels, t.loadError = none)
        ∧ newcomers (·.name) taken (levels.flatMap p.keptMembers) = members := by
  induction levels generalizing taken members with
  | nil => simp [membersOf, newcomers]
  | cons t levels ih =>
    have hlookup := hlevels t List.mem_cons_self
    have hrest : ∀ u ∈ levels, p.module.lookup? u.fullName = some u :=
      fun u hu => hlevels u (List.mem_cons_of_mem _ hu)
    -- The levels above meet the names of this level as taken.
    have htaken : ∀ members : List Member, ∀ name,
        name ∈ members.map (·.name) ++ taken ↔ name ∈ taken ++ members.map (·.name) := by
      intro members name
      rw [List.mem_append, List.mem_append, or_comm]
    rw [List.flatMap_cons, newcomers_append, keysWith, List.forall_mem_cons]
    cases hload : t.loadError with
    | some reason =>
      -- An unreadable level ends the walk, so there are no members at all.
      have herror : (p.module.introspect p.conventions t.fullName).toOption = none := by
        simp [Module.introspect, hlookup, hload, Except.toOption]
      simp [membersOf, herror]
    | none =>
      obtain ⟨record, hrecord⟩ := introspect_of_readable hlookup hload
      obtain ⟨-, hmembers⟩ := introspect_eq_ok hlookup hrecord
      -- The names of this level are taken for the levels above, whose members are those of the
      -- induction.
      rw [← newcomers_congr (htaken _)]
      simp only [membersOf, hrecord, Except.toOption, hmembers, Option.bind_eq_bind,
        Option.bind_some, Option.bind_eq_some_iff, ih hrest, Option.pure_def, Option.some.injEq,
        true_and]
      constructor
      · rintro ⟨rest, ⟨hloads, rfl⟩, rfl⟩
        exact ⟨hloads, rfl⟩
      · rintro ⟨hloads, rfl⟩
        exact ⟨_, ⟨hloads, rfl⟩, rfl⟩

/-- **The members of a type**: those that are not shadowed, if its base chain can be read. -/
theorem allMembers_eq_some {members : List Member} :
    p.allMembers fullName = some members ↔
      (∀ t ∈ p.module.baseChain p.conventions.universalRoot fullName, t.loadError = none)
        ∧ p.shownMembers fullName = members :=
  membersOf_eq_some fun _ => Module.lookup?_of_mem_baseChain

/-- The field has the name of the member and its localization marks. -/
structure Represents (p : Pass) (m : Member) (f : Field) : Prop where
  name : f.name = m.name
  handle : f.hasLocalizationHandle = m.hasAttribute p.conventions.localizationHandleMarker
  mustLocalize : f.mustLocalize = m.hasAttribute p.conventions.mustLocalizeMarker

theorem Made.represents {A : Request → Handle → Prop} {f : Field} (hf : p.Made A m f) :
    p.Represents m f := by
  cases hf <;> exact ⟨rfl, rfl, rfl⟩

/-- Fields that spell out a type have the names of its members, in order. -/
theorem Spelled.names {A : Request → Handle → Prop} {fields : List Field}
    (hfields : p.Spelled A fullName fields) : fields.map (·.name) = p.fieldNames fullName := by
  obtain ⟨members, hmembers, hmade⟩ := hfields
  obtain ⟨-, rfl⟩ := allMembers_eq_some.1 hmembers
  rw [fieldNames]
  clear hmembers
  generalize p.shownMembers fullName = members at hmade ⊢
  induction hmade with
  | nil => rfl
  | cons hf _ ih => rw [List.map_cons, List.map_cons, hf.represents.name, ih]

end Pass

/-! ## §4 Runs without their notes -/

/-- From the same registry the two computations answer alike and leave the same registry, whatever
the notes are. -/
def Alike {ν α : Type} (c c' : Build ν α) : Prop :=
  ∀ r notes notes', (c (r, notes)).1 = (c' (r, notes')).1
    ∧ (c (r, notes)).2.1 = (c' (r, notes')).2.1

namespace Alike

variable {ν α β : Type} {c c' : Build ν α}

theorem pure (a : α) : Alike (Pure.pure a : Build ν α) (Pure.pure a) := fun _ _ _ => ⟨rfl, rfl⟩

theorem throw (e : IntrospectionError) : Alike (MonadExcept.throw e : Build ν α)
    (MonadExcept.throw e) := fun _ _ _ => ⟨rfl, rfl⟩

/-- **Sequencing**: the second computations start from the same registry and the same answer. -/
theorem bind {f f' : α → Build ν β} (hc : Alike c c') (hf : ∀ a, Alike (f a) (f' a)) :
    Alike (c >>= f) (c' >>= f') := by
  intro r notes notes'
  obtain ⟨hanswer, hregistry⟩ := hc r notes notes'
  rw [run_bind, run_bind, ← hanswer]
  cases (c (r, notes)).1 with
  | error e => exact ⟨rfl, hregistry⟩
  | ok a =>
    have hlater := hf a (c (r, notes)).2.1 (c (r, notes)).2.2 (c' (r, notes')).2.2
    -- The first computations have left the same registry, so only their notes differ.
    rw [show ((c (r, notes)).2.1, (c' (r, notes')).2.2) = (c' (r, notes')).2 by
      rw [hregistry]] at hlater
    exact hlater

theorem map (f : α → β) (hc : Alike c c') : Alike (f <$> c) (f <$> c') := by
  rw [← bind_pure_comp, ← bind_pure_comp]
  exact hc.bind fun a => pure (f a)

theorem mapM {f f' : β → Build ν α} {xs : List β} (hf : ∀ x ∈ xs, Alike (f x) (f' x)) :
    Alike (xs.mapM f) (xs.mapM f') := by
  induction xs with
  | nil => exact pure []
  | cons x xs ih =>
    rw [List.mapM_cons, List.mapM_cons]
    exact bind (hf x List.mem_cons_self) fun a =>
      bind (ih fun y hy => hf y (List.mem_cons_of_mem _ hy)) fun as => pure (a :: as)

theorem requestSchema {needsSchema : String → Bool} {fullName : String}
    {resolve : Build ν (List Field)} (h : Alike resolve resolve) :
    Alike (Registry.requestSchema needsSchema fullName resolve)
      (Registry.requestSchema needsSchema fullName resolve) := by
  intro r notes notes'
  obtain ⟨hanswer, hregistry⟩ := h (r.reserveSchema fullName) notes notes'
  simp only [Registry.requestSchema]
  cases r.failure? fullName with
  | some e => exact ⟨rfl, rfl⟩
  | none =>
    cases r.schemaHandle? fullName with
    | some h => exact ⟨rfl, rfl⟩
    | none =>
      cases needsSchema fullName with
      | false => exact ⟨rfl, rfl⟩
      | true =>
        -- The resolvers end alike, so the schema is filled or has failed in both runs.
        generalize resolve (r.reserveSchema fullName, notes) = result at hanswer hregistry ⊢
        generalize resolve (r.reserveSchema fullName, notes') = result' at hanswer hregistry ⊢
        obtain ⟨answer, r₁, n₁⟩ := result
        obtain ⟨answer', r₂, n₂⟩ := result'
        obtain rfl : answer = answer' := hanswer
        obtain rfl : r₁ = r₂ := hregistry
        cases answer <;> exact ⟨rfl, rfl⟩

theorem requestVariant {fullName shortName : String} {special : Bool}
    {resolve : Build ν (List Field)} (h : Alike resolve resolve) :
    Alike (Registry.requestVariant fullName shortName special resolve)
      (Registry.requestVariant fullName shortName special resolve) := by
  intro r notes notes'
  obtain ⟨hanswer, hregistry⟩ := h (r.reserveVariant fullName shortName special) notes notes'
  simp only [Registry.requestVariant]
  cases r.variantHandle? shortName with
  | some h => exact ⟨rfl, rfl⟩
  | none =>
    -- The resolvers end alike, and the variant is filled or left as it was in both runs.
    generalize resolve (r.reserveVariant fullName shortName special, notes) = result
      at hanswer hregistry ⊢
    generalize resolve (r.reserveVariant fullName shortName special, notes') = result'
      at hanswer hregistry ⊢
    obtain ⟨answer, r₁, n₁⟩ := result
    obtain ⟨answer', r₂, n₂⟩ := result'
    obtain rfl : answer = answer' := hanswer
    obtain rfl : r₁ = r₂ := hregistry
    cases answer <;> exact ⟨rfl, rfl⟩

end Alike

namespace Pass

section Alike

variable {p : Pass} {ask : Request → Run Handle}

theorem alike_introspect (p : Pass) (fullName : String) :
    Alike (p.introspect fullName) (p.introspect fullName) := by
  intro r notes notes'
  rw [introspect_run, introspect_run]
  exact ⟨rfl, rfl⟩

/-- Apart from the note, an introspection that succeeds does nothing. -/
theorem alike_introspect_bind {α : Type} {fullName : String} {record : TypeRecord}
    (hrecord : p.module.introspect p.conventions fullName = .ok record)
    {f : TypeRecord → Run α} {c : Run α} (h : Alike (f record) c) :
    Alike (p.introspect fullName >>= f) c := by
  intro r notes notes'
  rw [run_bind, introspect_run, hrecord]
  exact h r _ notes'

theorem alike_classifyWith (hask : ∀ x, Alike (ask x) (ask x)) (m : Member) :
    Alike (p.classifyWith ask m) (p.classifyWith ask m) := by
  rw [classifyWith_eq]
  exact .map _ (.mapM fun x _ => hask x)

theorem alike_flattenLevels_self (hask : ∀ x, Alike (ask x) (ask x)) (taken : List String)
    (levels : List TypeInfo) :
    Alike (p.flattenLevels ask taken levels) (p.flattenLevels ask taken levels) := by
  induction levels generalizing taken with
  | nil => exact .pure []
  | cons t levels ih =>
    unfold flattenLevels
    refine .bind (alike_introspect p t.fullName) fun record => ?_
    exact .bind (.mapM fun m _ => alike_classifyWith hask m) fun fields =>
      .bind (ih _) fun rest => .pure _

/-- Requests take no notice of notes: their resolvers make requests that nest less deep, so the
induction is on the bound. -/
theorem alike_request (p : Pass) (depth : Nat) (x : Request) :
    Alike (p.request depth x) (p.request depth x) := by
  induction depth generalizing x with
  | zero => cases x <;> exact .throw _
  | succ depth ih =>
    cases x with
    -- The resolver of a schema makes its requests with less depth.
    | schema fullName => exact .requestSchema (alike_flattenLevels_self ih [] _)
    | variant fullName =>
      unfold request
      cases p.module.lookup? fullName with
      | none => exact .pure noHandle
      | some t => exact .requestVariant (alike_flattenLevels_self ih [] _)

/-- **Flattening is classifying** the members that are not shadowed, one after the other. -/
theorem alike_flattenLevels (hask : ∀ x, Alike (ask x) (ask x)) {taken : List String}
    {levels : List TypeInfo} {members : List Member}
    (hmembers : p.membersOf taken levels = some members) :
    Alike (p.flattenLevels ask taken levels) (members.mapM (p.classifyWith ask)) := by
  induction levels generalizing taken members with
  | nil =>
    obtain rfl := Option.some.inj hmembers
    exact .pure []
  | cons t levels ih =>
    unfold membersOf at hmembers
    obtain ⟨record, hrecord, hmembers⟩ := Option.bind_eq_some_iff.1 hmembers
    obtain ⟨rest, hrest, hmembers⟩ := Option.bind_eq_some_iff.1 hmembers
    obtain rfl := Option.some.inj hmembers
    -- The type has a record, or there would be no members.
    have hrecord' : p.module.introspect p.conventions t.fullName = .ok record := by
      cases h : p.module.introspect p.conventions t.fullName with
      | error e => simp [h, Except.toOption] at hrecord
      | ok record' => simpa [h, Except.toOption] using hrecord
    unfold flattenLevels
    rw [List.mapM_append]
    refine alike_introspect_bind hrecord' ?_
    exact .bind (.mapM fun m _ => alike_classifyWith hask m) fun fields =>
      .bind (ih hrest) fun _ => .pure _

end Alike

/-! ## §5 The fields of a type -/

/-- No state is ruled out. -/
def anyState : Regime State where
  Inv := fun _ => True
  Le := fun _ _ => True
  refl := fun _ => trivial
  trans := fun _ _ => trivial

theorem supports_anyState (ask : Request → Run Handle) :
    Supports anyState (fun _ _ _ => True) ask where
  notes := fun _ _ _ _ _ => ⟨trivial, trivial⟩
  mono := fun _ _ _ _ _ _ => trivial
  answers := fun _ _ _ _ _ => ⟨trivial, trivial, fun _ _ => trivial⟩

/-- **Most derived first**: which members of a base chain make the fields of a type, and in which
order. -/
structure MostDerivedFirst (p : Pass) (fullName : String) (s : State) (fields : List Field) :
    Prop where
  nodup : (fields.map (·.name)).Nodup
  names : ∀ name, name ∈ fields.map (·.name) ↔ ∃ place m, p.MetAt fullName place m ∧ m.name = name
  /-- Each field is the classification of a member that is met first, and the members come in the
  order of the walk.  They are classified one after the other, from the state of the session. -/
  classified : ∃ places members, List.Forall₂ (p.FirstMet fullName) places members
    ∧ places.Pairwise Before ∧ List.Forall₂ p.Represents members fields
    ∧ (members.mapM p.classify s).1 = .ok fields

/-- **The fields of a type**, in every module and every state of a session: base chains may be of
any length, run in circles or into undeclared types, and members may shadow one another. -/
theorem flatten_mostDerivedFirst {p : Pass} {fullName : String} {s : State} {fields : List Field}
    (h : (p.flatten fullName s).1 = .ok fields) : p.MostDerivedFirst fullName s fields := by
  obtain ⟨-, -, hspelled⟩ := (supports_anyState (p.request p.depthBound)).keeps_flattenWith p
    fullName s s trivial trivial
  have hfields := hspelled fields h
  have hnames := hfields.names
  obtain ⟨members, hmembers, hmade⟩ := hfields
  obtain ⟨places, hplaces, hordered⟩ := p.exists_places fullName
  obtain ⟨-, rfl⟩ := allMembers_eq_some.1 hmembers
  -- The notes of the session and of the walk itself do not show.
  have halike := (alike_flattenLevels (p.alike_request p.depthBound) hmembers s.1 s.2 s.2).1
  refine ⟨hnames ▸ p.nodup_fieldNames fullName, fun name => hnames ▸ mem_fieldNames, places,
    p.shownMembers fullName, hplaces, hordered, hmade.imp fun m f hf => hf.represents, ?_⟩
  exact halike.symm.trans h

/-- A shelf has a label of its own, and its base types run in a circle. -/
def shelfManifest : ModuleManifest where
  name := "Shelves"
  types :=
    [{ TypeInfo.ofClass "Mod.Shelf" with
        base := some "Mod.Furniture"
        members :=
          [{ name := "boards", type := .named "System.Int32" },
            { name := "count", type := .named "System.Int32", isStatic := true },
            { name := "label", type := .named "System.String",
              attributes := ["Verse.MustTranslateAttribute"] }] },
      { TypeInfo.ofClass "Mod.Furniture" with
        base := some "Mod.Thing"
        members :=
          [{ name := "label", type := .named "System.Int32" },
            { name := "next", type := .named "Mod.Furniture" }] },
      { TypeInfo.ofClass "Mod.Thing" with
        base := some "Mod.Shelf"
        members := [{ name := "weight", type := .named "System.Single" }] }]

/-- The label is that of the shelf, and the circle is walked once. -/
theorem flatten_shelf :
    let p := ofManifest "shelves.json" shelfManifest {}
    ∃ fields, (p.flatten "Mod.Shelf" start).1 = .ok fields
      ∧ fields.map (fun f => (f.name, f.declaredType, f.mustLocalize)) =
          [("boards", "System.Int32", false), ("label", "System.String", true),
            ("next", "Mod.Furniture", false), ("weight", "System.Single", false)]
      ∧ p.MostDerivedFirst "Mod.Shelf" start fields := by
  intro p
  -- The names, types and marks of the fields are computed; the fields themselves are whatever they
  -- are.
  have hflatten : ((p.flatten "Mod.Shelf" start).1.toOption.map fun fields =>
      fields.map fun f => (f.name, f.declaredType, f.mustLocalize)) =
        some [("boards", "System.Int32", false), ("label", "System.String", true),
          ("next", "Mod.Furniture", false), ("weight", "System.Single", false)] := by
    decide
  cases hfields : (p.flatten "Mod.Shelf" start).1 with
  | error e => simp [hfields, Except.toOption] at hflatten
  | ok fields =>
    refine ⟨fields, rfl, ?_, flatten_mostDerivedFirst hfields⟩
    simpa [hfields, Except.toOption] using hflatten

end Pass

end SchemaGraph
