import Mathlib.Order.Bounds.Defs
import SchemaGraph.Proofs.Extraction.Definitions

/-!
# What Discovery Reaches

Discovery works through a queue in which a type may stand several times, and passes over banned
types and those it has visited.  The order of visits has no say in what is visited: it is the least
set of types that contains the seeds and all that its members refer to.

- `Pass.Refers`, `Pass.Closed`: references between declarations, and the sets that follow them
- `Visits.nodup`, `Visits.closed`, `Visits.within`: what the queue guarantees, by induction on the
  visits
- `Pass.discover_least`: discovery in a fresh session
-/

namespace SchemaGraph

namespace Pass

variable {p : Pass} {fullName next : String} {visited queue order : List String}

/-! ## §1 References -/

/-- A type whose members can be read refers to the declared types of its members and to the items of
lists of one level, if they are declared and neither scalars nor banned. -/
structure Refers (p : Pass) (fullName next : String) : Prop where
  member : ∃ t m, p.module.lookup? fullName = some t ∧ t.loadError = none ∧ m ∈ t.members ∧ m.Kept
    ∧ (m.type = .named next ∨ m.type = .list (.named next))
  declared : ∃ t, p.module.lookup? next = some t
  notScalar : p.conventions.isScalar next = false
  notBanned : p.isBanned next = false

/-- The set contains the seeds that are not banned, and whatever its types refer to. -/
structure Closed (p : Pass) (reached : Set String) : Prop where
  definitions : ∀ name ∈ p.module.allSubtypes p.conventions.definitionBase,
    p.isBanned name = false → name ∈ reached
  properties : ∀ t ∈ p.module.types, Text.beginsWith p.conventions.propertiesLead t.name = true →
    p.isBanned t.fullName = false → t.fullName ∈ reached
  references : ∀ name ∈ reached, ∀ next, p.Refers name next → next ∈ reached

theorem mem_seeds : fullName ∈ p.seeds ↔
    fullName ∈ p.module.allSubtypes p.conventions.definitionBase
      ∨ ∃ t ∈ p.module.types, Text.beginsWith p.conventions.propertiesLead t.name = true
          ∧ t.fullName = fullName := by
  have hnew : ∀ known xs : List String,
      fullName ∈ (newcomers id known xs).map id ↔ fullName ∈ xs.map id ∧ fullName ∉ known :=
    fun _ _ => mem_map_newcomers
  simp only [List.map_id] at hnew
  simp only [seeds, List.mem_append, hnew, isPropertiesType, List.mem_map, List.mem_filter,
    and_assoc]
  -- A name that is no newcomer is listed before.
  tauto

theorem unwrapList_name?_eq_some {ref : TypeRef} :
    ref.unwrapList.name? = some next ↔ ref = .named next ∨ ref = .list (.named next) := by
  cases ref with
  | named typeName => simp [TypeRef.unwrapList, TypeRef.name?]
  | list item => cases item <;> simp [TypeRef.unwrapList, TypeRef.name?]

/-- The record of a type that is not banned is that of its declaration. -/
theorem introspect_eq_ok_iff {record : TypeRecord}
    (hbanned : p.conventions.isBanned fullName = false) :
    p.module.introspect p.conventions fullName = .ok record ↔
      ∃ t, p.module.lookup? fullName = some t ∧ t.loadError = none ∧ .ofType t = record := by
  unfold Module.introspect
  cases hlookup : p.module.lookup? fullName with
  | none => simp
  | some t => cases hload : t.loadError <;> simp [hload, hbanned]

/-- The names in a record are those of declared types and of items of one level. -/
theorem mem_referencedNames {t : TypeInfo} :
    next ∈ (TypeRecord.ofType t).referencedTypes.filterMap (·.unwrapList.name?) ↔
      ∃ m ∈ t.members, m.Kept ∧ (m.type = .named next ∨ m.type = .list (.named next)) := by
  simp only [TypeRecord.ofType, List.mem_filterMap, unwrapList_name?_eq_some, mem_distinct,
    List.mem_map, List.mem_filter, Member.isInstanceMember_iff]
  constructor
  · rintro ⟨ref, ⟨m, ⟨hm, hkept⟩, rfl⟩, href⟩
    exact ⟨m, hm, hkept, href⟩
  · rintro ⟨m, hm, hkept, href⟩
    exact ⟨m.type, ⟨m, ⟨hm, hkept⟩, rfl⟩, href⟩

/-- **Successors** of a type that is not banned are the types it refers to. -/
theorem mem_successors (hbanned : p.isBanned fullName = false) :
    next ∈ p.successors fullName ↔ p.Refers fullName next := by
  have hrecord : ∀ record, p.module.introspect p.conventions fullName = .ok record ↔
      ∃ t, p.module.lookup? fullName = some t ∧ t.loadError = none ∧ .ofType t = record :=
    fun _ => introspect_eq_ok_iff (Bool.or_eq_false_iff.1 hbanned).1
  unfold successors
  cases hintrospect : p.module.introspect p.conventions fullName with
  | error e =>
    -- Without a record there is no readable declaration.
    refine iff_of_false List.not_mem_nil fun ⟨⟨t, m, hlookup, hload, _⟩, _, _, _⟩ => ?_
    have hok := (hrecord _).2 ⟨t, hlookup, hload, rfl⟩
    rw [hintrospect] at hok
    cases hok
  | ok record =>
    -- A name has one declaration, so it is that of the record.
    obtain ⟨t, hlookup, hload, rfl⟩ := (hrecord record).1 hintrospect
    simp only [List.mem_filter, mem_referencedNames, Bool.and_eq_true, Bool.not_eq_true',
      Option.isSome_iff_exists, and_assoc]
    constructor
    · rintro ⟨⟨m, hm, hkept, href⟩, hscalar, hnext, hdeclared⟩
      exact ⟨⟨t, m, hlookup, hload, hm, hkept, href⟩, hdeclared, hscalar, hnext⟩
    · rintro ⟨⟨t', m, hlookup', -, hm, hkept, href⟩, hdeclared, hscalar, hnext⟩
      obtain rfl := Option.some.inj (hlookup.symm.trans hlookup')
      exact ⟨⟨m, hm, hkept, href⟩, hscalar, hnext, hdeclared⟩

/-! ## §2 Visits -/

/-- What is visited is not banned and has not been visited before. -/
theorem Visits.fresh (h : p.Visits visited queue order) (hmem : fullName ∈ order) :
    p.isBanned fullName = false ∧ fullName ∉ visited := by
  induction h with
  | done visited => cases hmem
  | skip visited queue order name hskip hrest ih => exact ih hmem
  | visit visited queue order name hvisit hrest ih =>
    obtain ⟨hbanned, hnew⟩ := Bool.or_eq_false_iff.1 hvisit
    rcases List.mem_cons.1 hmem with rfl | hmem
    · exact ⟨hbanned, by simpa using hnew⟩
    · exact ⟨(ih hmem).1, fun hvisited => (ih hmem).2 (List.mem_cons_of_mem _ hvisited)⟩

/-- **No type is visited twice.** -/
theorem Visits.nodup (h : p.Visits visited queue order) : order.Nodup := by
  induction h with
  | done visited => exact List.nodup_nil
  | skip visited queue order name hskip hrest ih => exact ih
  | visit visited queue order name hvisit hrest ih =>
    exact List.nodup_cons.2 ⟨fun hmem => (hrest.fresh hmem).2 List.mem_cons_self, ih⟩

/-- **Nothing is missed**: what a visited type leads to is visited as well. -/
theorem Visits.closed (h : p.Visits visited queue order) (hmem : fullName ∈ order)
    (hnext : next ∈ p.successors fullName) (hbanned : p.isBanned next = false) :
    next ∈ visited ∨ next ∈ order := by
  induction h with
  | done visited => cases hmem
  | skip visited queue order name hskip hrest ih => exact ih hmem
  | visit visited queue order name hvisit hrest ih =>
    -- Whether the name counts as visited or comes later, it is not lost.
    have hlater : next ∈ name :: visited ∨ next ∈ order →
        next ∈ visited ∨ next ∈ name :: order := by
      simp only [List.mem_cons]
      tauto
    rcases List.mem_cons.1 hmem with rfl | hmem
    · -- The visit puts all that is new at the end of the queue.
      refine hlater ?_
      by_cases hold : next ∈ fullName :: visited
      · exact .inl hold
      · refine hrest.mem_order (List.mem_append_right _ (List.mem_filter.2 ⟨hnext, ?_⟩)) hbanned
        simpa using hold
    · exact hlater (ih hmem)

/-- **Nothing else is visited**: a set that contains the queue and follows references contains all
visits. -/
theorem Visits.within (h : p.Visits visited queue order) {reached : Set String}
    (hqueue : ∀ name ∈ queue, p.isBanned name = false → name ∈ reached)
    (hreferences : ∀ name ∈ reached, ∀ next, p.Refers name next → next ∈ reached) :
    ∀ name ∈ order, name ∈ reached := by
  induction h with
  | done visited => simp
  | skip visited queue order name hskip hrest ih =>
    exact ih fun other hother => hqueue other (List.mem_cons_of_mem _ hother)
  | visit visited queue order name hvisit hrest ih =>
    have hbanned : p.isBanned name = false := (Bool.or_eq_false_iff.1 hvisit).1
    have hname : name ∈ reached := hqueue name List.mem_cons_self hbanned
    -- What follows in the queue was there before, or the visit has put it there.
    refine List.forall_mem_cons.2 ⟨hname, ih fun other hother hnot => ?_⟩
    rcases List.mem_append.1 hother with hother | hother
    · exact hqueue other (List.mem_cons_of_mem _ hother) hnot
    · exact hreferences name hname other ((mem_successors hbanned).1 (List.mem_filter.1 hother).1)

/-! ## §3 Discovery -/

/-- A type that is introspected for the first time is noted after the others. -/
theorem introspectAll_run (names : List String) (r : Registry) (notes : List String)
    (hdistinct : (notes ++ names).Nodup) :
    (forIn names PUnit.unit fun fullName _ => do
      try discard (p.introspect fullName) catch _ => pure ()
      return ForInStep.yield PUnit.unit : Run PUnit) (r, notes) =
        (.ok PUnit.unit, r, notes ++ names) := by
  induction names generalizing notes with
  | nil => rw [List.append_nil]; rfl
  | cons name names ih =>
    have hnew : name ∉ notes := fun hmem =>
      (List.nodup_append.1 hdistinct).2.2 name hmem name List.mem_cons_self rfl
    -- Since the name is new, noting it adds it at the end.
    rw [List.append_cons] at hdistinct ⊢
    rw [List.forIn_cons, run_bind, run_bind, attempt_run, if_neg hnew]
    exact ih (notes ++ [name]) hdistinct

/-- In a fresh session the types that are visited are the ones that are introspected, and the
registry stays empty. -/
theorem discover_start (p : Pass) : p.discover start = (.ok p.reachable, ({}, p.reachable)) := by
  unfold discover
  rw [run_bind, start, introspectAll_run _ _ _ p.visits_reachable.nodup]
  rfl

/-- The visited types are a closed set. -/
theorem closed_reachable (p : Pass) : p.Closed {name | name ∈ p.reachable} := by
  have hseeds : ∀ name ∈ p.seeds, p.isBanned name = false → name ∈ p.reachable :=
    fun name hseed hbanned =>
      (p.visits_reachable.mem_order hseed hbanned).resolve_left List.not_mem_nil
  refine ⟨fun name hname => ?_, fun t ht hleads => ?_, fun name hname next hrefers => ?_⟩
  · exact hseeds name (mem_seeds.2 (.inl hname))
  · exact hseeds t.fullName (mem_seeds.2 (.inr ⟨t, ht, hleads, rfl⟩))
  · have hbanned := (p.visits_reachable.fresh hname).1
    have hnext := (mem_successors hbanned).2 hrefers
    exact (p.visits_reachable.closed hname hnext hrefers.notBanned).resolve_left List.not_mem_nil

/-- **Discovery computes reachability**: in a fresh session it always answers, and it answers the
least set of types that contains the seeds and follows references, each type once.  Afterwards
exactly these types have been introspected, and no schema and no variant has been created. -/
theorem discover_least (p : Pass) :
    ∃ order, p.discover start = (.ok order, ({}, order)) ∧ order.Nodup
      ∧ IsLeast {reached : Set String | p.Closed reached} {name | name ∈ order} := by
  refine ⟨p.reachable, p.discover_start, p.visits_reachable.nodup, p.closed_reachable, ?_⟩
  intro reached hclosed
  refine p.visits_reachable.within (fun name hseed hbanned => ?_) hclosed.references
  rcases mem_seeds.1 hseed with hlisted | ⟨t, ht, hleads, rfl⟩
  · exact hclosed.definitions name hlisted hbanned
  · exact hclosed.properties t ht hleads hbanned

end Pass

end SchemaGraph
