import Mathlib.Algebra.GroupWithZero.Nat
import Mathlib.Algebra.Order.BigOperators.Group.List
import Mathlib.Algebra.Order.Group.Nat
import SchemaGraph.Extraction.Discovery
import SchemaGraph.Proofs.Module.Lookup

/-!
# Discovery without a Bound

Discovery works through a queue that grows while it is worked through.  A visit adds no more names
than the visited type has members, and no type is visited twice, so the queue runs empty.  As for
the walks of a module, the work is described by derivations that know no bound.

- `Pass.Visits`: the order of visits, derived from the queue
- `Pass.visits_reachable`: discovery has visited all that was ever in its queue
-/

namespace SchemaGraph

namespace Pass

variable {p : Pass} {name : String} {visited queue : List String}

/-! ## §1 Visits -/

/-- The order in which the types of a queue, and those that they lead to, are visited. -/
inductive Visits (p : Pass) : (visited queue order : List String) → Prop where
  | done (visited : List String) : Visits p visited [] []
  | skip (visited queue order : List String) (name : String)
    (hskip : (p.isBanned name || visited.contains name) = true)
    (hrest : Visits p visited queue order) : Visits p visited (name :: queue) order
  | visit (visited queue order : List String) (name : String)
    (hvisit : (p.isBanned name || visited.contains name) = false)
    (hrest : Visits p (name :: visited)
      (queue ++ (p.successors name).filter (!(name :: visited).contains ·)) order) :
    Visits p visited (name :: queue) (name :: order)

/-! ## §2 What a visit may add -/

/-- The number of members that some declarations have, those of visited types apart. -/
def unvisitedMembers (visited : List String) (types : List TypeInfo) : Nat :=
  (types.map fun t => if t.fullName ∈ visited then 0 else t.members.length).sum

theorem foldl_members (types : List TypeInfo) (n : Nat) :
    types.foldl (fun n t => n + t.members.length) n = n + unvisitedMembers [] types := by
  induction types generalizing n with
  | nil => rfl
  | cons t types ih =>
    rw [List.foldl_cons, ih]
    simp [unvisitedMembers, Nat.add_assoc]

theorem memberCount_eq (p : Pass) :
    p.memberCount = unvisitedMembers [] (p.module.types ++ p.module.imports) := by
  rw [memberCount, foldl_members, Nat.zero_add]

/-- A visit cannot add to the members that are left. -/
theorem unvisitedMembers_cons_le (name : String) (visited : List String) (types : List TypeInfo) :
    unvisitedMembers (name :: visited) types ≤ unvisitedMembers visited types := by
  refine List.sum_le_sum fun t _ => ?_
  by_cases hvisited : t.fullName ∈ visited
  · simp [hvisited]
  · by_cases hname : t.fullName = name <;> simp [hvisited, hname]

/-- Visiting a type uses up the members of its declaration. -/
theorem unvisitedMembers_cons {types : List TypeInfo} {t : TypeInfo} (ht : t ∈ types)
    (hnew : t.fullName ∉ visited) :
    unvisitedMembers (t.fullName :: visited) types + t.members.length
      ≤ unvisitedMembers visited types := by
  induction types with
  | nil => cases ht
  | cons u types ih =>
    have hcons : ∀ visited, unvisitedMembers visited (u :: types) =
        (if u.fullName ∈ visited then 0 else u.members.length) + unvisitedMembers visited types :=
      fun visited => by simp [unvisitedMembers]
    rw [hcons, hcons]
    rcases List.mem_cons.1 ht with rfl | ht
    · -- The declaration itself no longer counts.
      have hmono := unvisitedMembers_cons_le t.fullName visited types
      rw [if_pos List.mem_cons_self, if_neg hnew]
      omega
    -- A declaration further down is used up by induction; this one counts as before, or not at all.
    · have hrest := ih ht
      by_cases hu : u.fullName ∈ visited
      · rw [if_pos (List.mem_cons_of_mem _ hu), if_pos hu]
        omega
      · rw [if_neg hu]
        split <;> omega

theorem length_newcomers_le {α κ : Type} [DecidableEq κ] (key : α → κ) (known : List κ)
    (xs : List α) : (newcomers key known xs).length ≤ xs.length := by
  induction xs generalizing known with
  | nil => simp [newcomers]
  | cons x xs ih =>
    rw [newcomers]
    split
    · exact Nat.le_succ_of_le (ih known)
    · exact Nat.succ_le_succ (ih _)

/-- A type leads to no more types than it has members. -/
theorem length_successors_le {t : TypeInfo} (hlookup : p.module.lookup? name = some t) :
    (p.successors name).length ≤ t.members.length := by
  cases hload : t.loadError with
  | some reason => simp [successors, Module.introspect, hlookup, hload]
  | none =>
    simp only [successors, Module.introspect, hlookup, hload]
    -- Both filters and the look-up of names only take types away.
    refine Nat.le_trans (List.length_filter_le _ _)
      (Nat.le_trans (List.length_filterMap_le _ _) ?_)
    split
    · simp [TypeRecord.banned]
    · -- The types of the members are listed without repetition.
      refine Nat.le_trans (length_newcomers_le _ _ _) ?_
      rw [List.length_map]
      exact List.length_filter_le _ _

theorem successors_of_undeclared (hlookup : p.module.lookup? name = none) :
    p.successors name = [] := by
  simp [successors, Module.introspect, hlookup]

/-! ## §3 The queue runs empty -/

/-- Enough steps are left for the queue and for all that visits may add to it. -/
theorem visits_visitOrder {fuel : Nat}
    (hfuel : queue.length
      + unvisitedMembers visited (p.module.types ++ p.module.imports) < fuel) :
    p.Visits visited queue (p.visitOrder fuel visited queue) := by
  induction fuel generalizing visited queue with
  | zero => omega
  | succ fuel ih =>
    cases queue with
    | nil => exact .done visited
    | cons name queue =>
      rw [List.length_cons] at hfuel
      rw [visitOrder]
      cases hskip : p.isBanned name || visited.contains name with
      | true =>
        rw [if_pos rfl]
        exact .skip visited queue _ name hskip (ih (by omega))
      | false =>
        rw [if_neg Bool.false_ne_true]
        -- A visit takes one name from the queue and adds the successors, which its members pay for.
        refine .visit visited queue _ name hskip (ih ?_)
        have hnew : name ∉ visited := by
          simpa using (Bool.or_eq_false_iff.1 hskip).2
        have hadded := List.length_filter_le (!(name :: visited).contains ·) (p.successors name)
        rw [List.length_append]
        cases hlookup : p.module.lookup? name with
        | none =>
          -- Nothing is known of the type, so it leads nowhere.
          have hmono :=
            unvisitedMembers_cons_le name visited (p.module.types ++ p.module.imports)
          rw [successors_of_undeclared hlookup] at hadded ⊢
          simp only [List.filter_nil, List.length_nil] at hadded ⊢
          omega
        | some t =>
          obtain ⟨hmem, rfl⟩ := Module.lookup?_eq_some hlookup
          -- The members of the type are used up, and there were at least as many as new names.
          have hused := unvisitedMembers_cons hmem hnew
          have hsuccessors := length_successors_le hlookup
          omega

/-- **Discovery ends by itself.** -/
theorem visits_reachable (p : Pass) : p.Visits [] p.seeds p.reachable :=
  visits_visitOrder (by rw [← memberCount_eq]; exact Nat.lt_succ_self _)

end Pass

end SchemaGraph
