import Mathlib.Logic.Relation
import SchemaGraph.Proofs.Module.Ancestry
import SchemaGraph.Proofs.Module.Walks

/-!
# Assignability

Whether a type can stand in for another one is found out by walking up its base types with an eye on
those that were met before: the walk is over where it meets the other type, a type for the second
time, or a type without a base.  Inheritance may run in circles of any length, and the walk may
enter one far above the type where it starts.  It ends all the same, and it misses nothing: once a
type is met again, every type further up has been met as well.

- `Module.HasBase`: one step up, said of the declarations
- `Module.Seeks`: the walk
- `Module.isAssignableTo_closure`: the walk ends with what the closure of the steps says
-/

namespace SchemaGraph

namespace Module

variable {m : Module} {step : String → Option String} {types : List TypeInfo}
  {name x y a : String} {t : TypeInfo} {seen : List String} {fuel : Nat} {answer : Bool}

/-! ## §1 Steps -/

/-- Of the declarations in the list that have its name, it is the last one. -/
def IsLast (types : List TypeInfo) (t : TypeInfo) : Prop :=
  ∃ before after, types = before ++ t :: after ∧ ∀ u ∈ after, u.fullName ≠ t.fullName

/-- The declaration that a name stands for: the last own one of that name, or the last imported one
if no own type has the name. -/
def StandsFor (m : Module) (t : TypeInfo) : Prop :=
  IsLast m.types t ∨ (∀ u ∈ m.types, u.fullName ≠ t.fullName) ∧ IsLast m.imports t

/-- The declaration that the name stands for has the base. -/
def HasBase (m : Module) (name base : String) : Prop :=
  ∃ t, m.StandsFor t ∧ t.fullName = name ∧ t.base = some base

theorem lastNamed?_eq_some_iff_isLast :
    lastNamed? types name = some t ↔ IsLast types t ∧ t.fullName = name := by
  -- The last one is the first one from behind.
  rw [lastNamed?, List.find?_eq_some_iff_append]
  constructor
  · rintro ⟨hname, after, before, heq, hafter⟩
    obtain rfl := of_decide_eq_true hname
    refine ⟨⟨before.reverse, after.reverse, ?_, fun u hu => ?_⟩, rfl⟩
    · rw [← List.reverse_reverse types, heq]
      simp
    · simpa using hafter u (List.mem_reverse.1 hu)
  · rintro ⟨⟨before, after, rfl, hafter⟩, rfl⟩
    refine ⟨decide_eq_true rfl, after.reverse, before.reverse, by simp, fun u hu => ?_⟩
    simpa using hafter u (List.mem_reverse.1 hu)

theorem lastNamed?_eq_none_iff : lastNamed? types name = none ↔ ∀ u ∈ types, u.fullName ≠ name := by
  simp [lastNamed?]

/-- **Look-up**: an own declaration before an imported one, and of several the last. -/
theorem lookup?_eq_some_iff : m.lookup? name = some t ↔ m.StandsFor t ∧ t.fullName = name := by
  unfold lookup? StandsFor
  cases hown : lastNamed? m.types name with
  | some u =>
    obtain ⟨hlast, hname⟩ := lastNamed?_eq_some_iff_isLast.1 hown
    constructor
    · rintro ⟨⟩
      exact ⟨.inl hlast, hname⟩
    · rintro ⟨hlast' | ⟨hnone, -⟩, rfl⟩
      · exact hown.symm.trans (lastNamed?_eq_some_iff_isLast.2 ⟨hlast', rfl⟩)
      · -- The name is that of an own type, so no imported one counts.
        exact absurd hname (hnone u (lastNamed?_eq_some hown).1)
  | none =>
    have hnone := lastNamed?_eq_none_iff.1 hown
    rw [lastNamed?_eq_some_iff_isLast]
    constructor
    · rintro ⟨hlast, rfl⟩
      exact ⟨.inr ⟨hnone, hlast⟩, rfl⟩
    · rintro ⟨⟨before, after, heq, -⟩ | ⟨-, hlast⟩, rfl⟩
      · exact absurd rfl (hnone t (by simp [heq]))
      · exact ⟨hlast, rfl⟩

theorem base?_eq_some_iff : m.base? x = some y ↔ m.HasBase x y := by
  simp only [base?, Option.bind_eq_some_iff, lookup?_eq_some_iff, HasBase, and_assoc]

/-! ## §2 Ways -/

/-- A way of any length is a chain of steps. -/
theorem exists_climb_iff :
    (∃ n, climb step n x = some a) ↔ Relation.ReflTransGen (fun y z => step y = some z) x a := by
  constructor
  · rintro ⟨n, h⟩
    induction n generalizing x with
    | zero => exact Option.some.inj h ▸ .refl
    | succ n ih =>
      obtain ⟨y, hy, h⟩ := Option.bind_eq_some_iff.1 h
      exact .head hy (ih h)
  · intro h
    induction h using Relation.ReflTransGen.head_induction_on with
    | refl => exact ⟨0, rfl⟩
    | head hstep _ ih =>
      obtain ⟨n, hn⟩ := ih
      exact ⟨n + 1, Option.bind_eq_some_iff.2 ⟨_, hstep, hn⟩⟩

theorem isAssignableTo_iff_reflTransGen :
    m.isAssignableTo x a = true ↔ Relation.ReflTransGen m.HasBase x a := by
  have hsteps : (fun y z => m.base? y = some z) = m.HasBase := by
    funext y z
    exact propext base?_eq_some_iff
  rw [isAssignableTo_iff, exists_climb_iff, hsteps]

/-- From a type without a base no other type is reached. -/
theorem not_reflTransGen_of_base?_eq_none (hbase : m.base? x = none) (hne : x ≠ a) :
    ¬ Relation.ReflTransGen m.HasBase x a := by
  intro h
  rcases Relation.ReflTransGen.cases_head h with heq | ⟨y, hstep, -⟩
  · exact hne heq
  · rw [← base?_eq_some_iff, hbase] at hstep
    cases hstep

/-- From any other type, what is reached is reached by way of the base. -/
theorem reflTransGen_iff_of_base? (hbase : m.base? x = some y) (hne : x ≠ a) :
    Relation.ReflTransGen m.HasBase x a ↔ Relation.ReflTransGen m.HasBase y a := by
  constructor
  · intro h
    rcases Relation.ReflTransGen.cases_head h with heq | ⟨z, hstep, hrest⟩
    · exact absurd heq hne
    · rw [← base?_eq_some_iff, hbase] at hstep
      exact Option.some.inj hstep ▸ hrest
  · exact .head (base?_eq_some_iff.1 hbase)

/-- **Nothing new follows a repetition**: types that hold the bases of one another are not left. -/
theorem not_reflTransGen_of_closed (hclosed : ∀ y ∈ seen, ∀ z, m.base? y = some z → z ∈ seen)
    (ha : a ∉ seen) (hx : x ∈ seen) : ¬ Relation.ReflTransGen m.HasBase x a := by
  intro h
  induction h using Relation.ReflTransGen.head_induction_on with
  | refl => exact ha hx
  | head hstep _ ih => exact ih (hclosed _ hx _ (base?_eq_some_iff.2 hstep))

/-! ## §3 The walk -/

/-- Looking for a type on the way up, where `seen` holds the types met before, ends with the answer.
A derivation is finite, so whoever has one knows that the walk ends. -/
inductive Seeks (m : Module) (ancestor : String) :
    (seen : List String) → String → (answer : Bool) → Prop where
  | found (seen : List String) : Seeks m ancestor seen ancestor true
  | again (seen : List String) (name : String) (hne : name ≠ ancestor) (hseen : name ∈ seen) :
    Seeks m ancestor seen name false
  | top (seen : List String) (name : String) (hne : name ≠ ancestor) (hnew : name ∉ seen)
    (hbase : m.base? name = none) : Seeks m ancestor seen name false
  | climb (seen : List String) (name base : String) (answer : Bool) (hne : name ≠ ancestor)
    (hnew : name ∉ seen) (hbase : m.base? name = some base)
    (hrest : Seeks m ancestor (name :: seen) base answer) : Seeks m ancestor seen name answer

/-- **The walk ends**: the types met before are declared and pairwise different, so there are not
too many of them. -/
theorem exists_seeks (hnodup : seen.Nodup) (hdeclared : seen ⊆ m.fullNames)
    (hfuel : m.declarationCount < fuel + seen.length) : ∃ answer, m.Seeks a seen x answer := by
  induction fuel generalizing seen x with
  -- A type without fuel left would have met more types than are declared.
  | zero =>
    have hlength := length_le_declarationCount hnodup hdeclared
    omega
  | succ fuel ih =>
    -- The walk ends here, or goes on with the base, as one more type that is declared.
    by_cases hxa : x = a
    · exact ⟨true, hxa ▸ .found seen⟩
    by_cases hseen : x ∈ seen
    · exact ⟨false, .again seen x hxa hseen⟩
    cases hbase : m.base? x with
    | none => exact ⟨false, .top seen x hxa hseen hbase⟩
    | some base =>
      have hdeclared' : x :: seen ⊆ m.fullNames :=
        List.cons_subset.2 ⟨mem_declared_of_base? hbase, hdeclared⟩
      obtain ⟨answer, hanswer⟩ := ih (x := base) (List.nodup_cons.2 ⟨hseen, hnodup⟩) hdeclared'
        (by rw [List.length_cons]; omega)
      exact ⟨answer, .climb seen x base answer hxa hseen hbase hanswer⟩

/-- **The walk is right**, by induction on its derivation: the type looked for has not been met, and
the bases of the types met before have been met, but for the last one, where the walk is now. -/
theorem Seeks.answer_iff (h : m.Seeks a seen x answer) (ha : a ∉ seen)
    (hnext : ∀ y ∈ seen, ∀ z, m.base? y = some z → z ∈ seen ∨ z = x) :
    answer = true ↔ Relation.ReflTransGen m.HasBase x a := by
  induction h with
  | found seen => exact iff_of_true rfl .refl
  -- The types met before are closed under bases, and the one looked for is none of them.
  | again seen name hne hseen =>
    have hclosed : ∀ y ∈ seen, ∀ z, m.base? y = some z → z ∈ seen := by
      intro y hy z hz
      rcases hnext y hy z hz with hz | rfl
      · exact hz
      · exact hseen
    exact iff_of_false Bool.false_ne_true (not_reflTransGen_of_closed hclosed ha hseen)
  | top seen name hne hnew hbase =>
    exact iff_of_false Bool.false_ne_true (not_reflTransGen_of_base?_eq_none hbase hne)
  | climb seen name base answer hne hnew hbase hrest ih =>
    rw [reflTransGen_iff_of_base? hbase hne]
    refine ih (List.not_mem_cons_of_ne_of_not_mem hne.symm ha) fun y hy z hz => ?_
    rcases List.mem_cons.1 hy with rfl | hy
    · exact .inr (Option.some.inj (hz.symm.trans hbase))
    · rcases hnext y hy z hz with hz | rfl
      · exact .inl (List.mem_cons_of_mem _ hz)
      · exact .inl List.mem_cons_self

/-- Whatever answer the walk ends with, it is the one that is given. -/
theorem Seeks.eq_isAssignableTo (h : m.Seeks a [] x answer) : answer = m.isAssignableTo x a := by
  rw [Bool.eq_iff_iff, isAssignableTo_iff_reflTransGen]
  exact h.answer_iff List.not_mem_nil fun y hy => nomatch hy

theorem seeks_isAssignableTo (m : Module) (x a : String) :
    m.Seeks a [] x (m.isAssignableTo x a) := by
  obtain ⟨answer, h⟩ := exists_seeks (m := m) (x := x) (a := a) List.nodup_nil (List.nil_subset _)
    (Nat.lt_succ_self _)
  exact h.eq_isAssignableTo ▸ h

/-- **Assignability** is the reflexive and transitive closure of the base relation, for every
module: the walk up always ends, with one answer only, and that says which types can be reached.
Bases may be undeclared or imported, names repeated, and inheritance may run in circles. -/
theorem isAssignableTo_closure (m : Module) :
    (∀ x a, m.Seeks a [] x (m.isAssignableTo x a))
      ∧ (∀ x a answer, m.Seeks a [] x answer → answer = m.isAssignableTo x a)
      ∧ (∀ x a, m.isAssignableTo x a = true ↔ Relation.ReflTransGen m.HasBase x a)
      ∧ (∀ x, m.isAssignableTo x x = true)
      ∧ ∀ x y z, m.isAssignableTo x y = true → m.isAssignableTo y z = true →
          m.isAssignableTo x z = true := by
  refine ⟨m.seeks_isAssignableTo, fun x a answer h => h.eq_isAssignableTo,
    fun x a => isAssignableTo_iff_reflTransGen, fun x => ?_, fun x y z hxy hyz => ?_⟩
  · exact isAssignableTo_iff_reflTransGen.2 .refl
  · rw [isAssignableTo_iff_reflTransGen] at hxy hyz ⊢
    exact hxy.trans hyz

/-- From the tail that leads into a circle, everything in the circle is reached. -/
example :
    let m : Module := .ofManifest "circle.json"
      { types := [(TypeInfo.ofClass "Tail").withBase "A", (TypeInfo.ofClass "A").withBase "B"]
        imports := [(TypeInfo.ofClass "B").withBase "A", (TypeInfo.ofClass "A").withBase "C"] }
    m.isAssignableTo "Tail" "B" = true ∧ m.isAssignableTo "B" "Tail" = false
      ∧ m.isAssignableTo "Tail" "C" = false := by
  decide

end Module

end SchemaGraph
