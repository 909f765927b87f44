import Mathlib.Data.List.Nodup
import Mathlib.Data.List.Perm.Subperm
import SchemaGraph.Proofs.Module.Lookup

/-!
# Walks without a Bound

Base chains are computed with a bound on the number of steps.  Here the same walk is described
without one: a derivation is finite, so whoever has one knows that the walk ends by itself.  Every
chain has a derivation, cycles or not, because a walk does not come back to a type that it is at
already, and there are only so many declared types.

- `Module.chain_baseChain`: the walk up the base types
-/

namespace SchemaGraph

namespace Module

variable {m : Module} {root name : String} {path : List String} {fuel : Nat}

/-! ## §1 Declared names -/

/-- The full names of the declarations. -/
def fullNames (m : Module) : List String := (m.types ++ m.imports).map (·.fullName)

/-- The short names of the declarations. -/
def shortNames (m : Module) : List String := (m.types ++ m.imports).map (·.name)

theorem length_fullNames (m : Module) : m.fullNames.length = m.declarationCount := by
  simp [fullNames, declarationCount]

/-- Declared types that are pairwise different are no more than there are declarations. -/
theorem length_le_declarationCount {names : List String} (hnodup : names.Nodup)
    (hdeclared : names ⊆ m.fullNames) : names.length ≤ m.declarationCount := by
  rw [← length_fullNames]
  exact (hnodup.subperm hdeclared).length_le

theorem mem_fullNames_of_lookup? {t : TypeInfo} (h : m.lookup? name = some t) :
    name ∈ m.fullNames := by
  obtain ⟨hmem, rfl⟩ := lookup?_eq_some h
  exact List.mem_map_of_mem hmem

theorem mem_shortNames_of_lookup? {t : TypeInfo} (h : m.lookup? name = some t) :
    t.name ∈ m.shortNames :=
  List.mem_map_of_mem (lookup?_eq_some h).1

/-! ## §2 Up the base types -/

/-- The chain of a type, where `path` holds the types met before. -/
inductive Chain (m : Module) (root : String) :
    (path : List String) → String → List TypeInfo → Prop where
  | stop (path : List String) (name : String) (hstop : name = root ∨ name ∈ path) :
    Chain m root path name []
  | undeclared (path : List String) (name : String) (hgo : ¬(name = root ∨ name ∈ path))
    (hlookup : m.lookup? name = none) : Chain m root path name []
  | top (path : List String) (name : String) (t : TypeInfo) (hgo : ¬(name = root ∨ name ∈ path))
    (hlookup : m.lookup? name = some t) (hbase : t.base = none) : Chain m root path name [t]
  | climb (path : List String) (name : String) (t : TypeInfo) (base : String)
    (levels : List TypeInfo) (hgo : ¬(name = root ∨ name ∈ path))
    (hlookup : m.lookup? name = some t) (hbase : t.base = some base)
    (hrest : Chain m root (name :: path) base levels) : Chain m root path name (t :: levels)

/-- The types met before are declared and pairwise different, so there are not too many. -/
theorem chain_chainFrom (hnodup : path.Nodup) (hdeclared : path ⊆ m.fullNames)
    (hfuel : m.declarationCount < fuel + path.length) :
    m.Chain root path name (m.chainFrom root fuel path name) := by
  induction fuel generalizing path name with
  | zero =>
    -- More types would have been met than are declared.
    have hlength := length_le_declarationCount hnodup hdeclared
    omega
  | succ fuel ih =>
    rw [chainFrom]
    split
    next hstop => exact .stop path name hstop
    next hgo =>
      -- The walk looks at the declaration, and goes on only if that has a base.
      cases hlookup : m.lookup? name with
      | none => exact .undeclared path name hgo hlookup
      | some t =>
        cases hbase : t.base with
        | none => simpa [hbase] using Chain.top path name t hgo hlookup hbase
        | some base =>
          have hnew : name ∉ path := fun h => hgo (.inr h)
          have hrest : m.Chain root (name :: path) base
              (m.chainFrom root fuel (name :: path) base) :=
            ih (List.nodup_cons.2 ⟨hnew, hnodup⟩)
              (List.cons_subset.2 ⟨mem_fullNames_of_lookup? hlookup, hdeclared⟩)
              (by rw [List.length_cons]; omega)
          simpa [hbase] using Chain.climb path name t base _ hgo hlookup hbase hrest

/-- **Base chains end by themselves.** -/
theorem chain_baseChain (m : Module) (root name : String) :
    m.Chain root [] name (m.baseChain root name) :=
  chain_chainFrom List.nodup_nil (List.nil_subset _) (by simp)

/-- Every level of a chain is the declaration of its name. -/
theorem Chain.lookup? {levels : List TypeInfo} (h : m.Chain root path name levels) {t : TypeInfo}
    (ht : t ∈ levels) : m.lookup? t.fullName = some t := by
  have hself : ∀ {name : String} {u : TypeInfo}, m.lookup? name = some u →
      m.lookup? u.fullName = some u := by
    intro name u hlookup
    rwa [(lookup?_eq_some hlookup).2]
  induction h with
  | stop => cases ht
  | undeclared => cases ht
  | top path name u hgo hlookup hbase => exact List.mem_singleton.1 ht ▸ hself hlookup
  | climb path name u base levels hgo hlookup hbase hrest ih =>
    rcases List.mem_cons.1 ht with rfl | ht
    · exact hself hlookup
    · exact ih ht

theorem lookup?_of_mem_baseChain {t : TypeInfo} (ht : t ∈ m.baseChain root name) :
    m.lookup? t.fullName = some t :=
  (chain_baseChain m root name).lookup? ht

end Module

end SchemaGraph
