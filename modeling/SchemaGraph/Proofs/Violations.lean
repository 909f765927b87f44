import Mathlib.Data.List.Nodup
import SchemaGraph.Proofs.Model.Arena
import SchemaGraph.Proofs.Validation

/-!
# One Entry for Each Violation

A violation has an address: the record, the position of the field and of every field on the way down
to it, and which check it fails; a variant handle that is listed twice stands at two places.  What
validation reports is said of addresses, without the order of the checks: every violation has one
entry, which tells its location and the handle in question, and every entry is that of a violation.

- `Reports`: a list of entries against the cases that are due one, with a rule for each way in which
  checks are put together
- `Field.Wrong`, `Cache.Violates`: the violations of a field and of a cache, each with its entry
- `Cache.reports_problems`: the entries of a report, by induction on the field trees
- `Cache.validation_exact`: validation finds nothing exactly in a sound cache, where all handles can
  be followed, and one problem for each violation elsewhere
-/

namespace SchemaGraph

/-! ## §1 Reports -/

/-- The entries are those of the cases, in some order: each case that is due an entry has one, and
no two cases share an entry. -/
def Reports {α β : Type} (entries : List β) (Due : α → β → Prop) : Prop :=
  ∃ cases : List (α × β), (cases.map Prod.fst).Nodup ∧ (∀ a b, (a, b) ∈ cases ↔ Due a b)
    ∧ entries = cases.map Prod.snd

namespace Reports

variable {α β γ ι : Type} {xs ys : List β} {Due Due' : α → β → Prop}

theorem congr (h : Reports xs Due) (hiff : ∀ a b, Due a b ↔ Due' a b) : Reports xs Due' := by
  obtain ⟨cases, hnodup, hmem, hxs⟩ := h
  exact ⟨cases, hnodup, fun a b => (hmem a b).trans (hiff a b), hxs⟩

/-- A check that reports at most one entry. -/
theorem check (a : α) (b : β) (p : Prop) [Decidable p] :
    Reports (if p then [b] else []) fun a' b' => p ∧ a' = a ∧ b' = b := by
  by_cases hp : p
  · exact ⟨[(a, b)], List.nodup_singleton _, by simp [hp], by simp [hp]⟩
  · exact ⟨[], List.nodup_nil, by simp [hp], by simp [hp]⟩

/-- Two checks after each other, of different addresses. -/
theorem append (h : Reports xs Due) (h' : Reports ys Due')
    (hapart : ∀ a b b', Due a b → ¬ Due' a b') :
    Reports (xs ++ ys) fun a b => Due a b ∨ Due' a b := by
  obtain ⟨cases, hnodup, hmem, rfl⟩ := h
  obtain ⟨cases', hnodup', hmem', rfl⟩ := h'
  refine ⟨cases ++ cases', ?_, fun a b => by rw [List.mem_append, hmem, hmem'], by simp⟩
  rw [List.map_append]
  refine hnodup.append hnodup' fun a ha ha' => ?_
  obtain ⟨⟨a, b⟩, hb, rfl⟩ := List.mem_map.1 ha
  obtain ⟨⟨_, b'⟩, hb', rfl⟩ := List.mem_map.1 ha'
  exact hapart _ b b' ((hmem _ _).1 hb) ((hmem' _ _).1 hb')

/-- A check whose addresses are part of longer ones. -/
theorem image (f : α → γ) (hf : Function.Injective f) (h : Reports xs Due) :
    Reports xs fun c b => ∃ a, f a = c ∧ Due a b := by
  obtain ⟨cases, hnodup, hmem, rfl⟩ := h
  refine ⟨cases.map (Prod.map f id), ?_, fun c b => ?_, by simp⟩
  -- The cases keep their order and number, and different addresses stay different.
  · have hfst : (cases.map (Prod.map f id)).map Prod.fst = (cases.map Prod.fst).map f := by simp
    rw [hfst]
    exact hnodup.map hf
  · simp only [List.mem_map, Prod.exists, Prod.map_apply, id_eq, Prod.mk.injEq, hmem]
    constructor
    · rintro ⟨a, _, hdue, rfl, rfl⟩
      exact ⟨a, rfl, hdue⟩
    · rintro ⟨a, rfl, hdue⟩
      exact ⟨a, b, hdue, rfl, rfl⟩

/-- The checks of all entries of a list, where the address tells the position. -/
theorem flatten_mapIdx (items : List ι) {check : Nat → ι → List β} {Due : Nat → ι → α → β → Prop}
    (hcheck : ∀ i x, items[i]? = some x → Reports (check i x) (Due i x))
    (hapart : ∀ i j x y a b b', Due i x a b → Due j y a b' → i = j) :
    Reports (items.mapIdx check).flatten fun a b =>
      ∃ i x, items[i]? = some x ∧ Due i x a b := by
  induction items generalizing check Due with
  | nil => exact ⟨[], List.nodup_nil, by simp, by simp⟩
  | cons x items ih =>
    -- The first entry has its own check, and the positions of the others are one further on.
    have hfirst : Reports (check 0 x) (Due 0 x) := hcheck 0 x rfl
    have hrest : Reports (items.mapIdx fun i => check (i + 1)).flatten
        fun a b => ∃ i y, items[i]? = some y ∧ Due (i + 1) y a b :=
      ih (fun i y hy => hcheck (i + 1) y hy)
        fun i j y z a b b' hi hj => Nat.succ.inj (hapart _ _ y z a b b' hi hj)
    rw [List.mapIdx_cons, List.flatten_cons]
    refine (hfirst.append hrest fun a b b' hdue ⟨i, y, _, hdue'⟩ => ?_).congr fun a b => ?_
    · exact absurd (hapart _ _ x y a b b' hdue hdue') (Nat.succ_ne_zero i).symm
    · constructor
      · rintro (hdue | ⟨i, y, hy, hdue⟩)
        · exact ⟨0, x, rfl, hdue⟩
        · exact ⟨i + 1, y, hy, hdue⟩
      · rintro ⟨_ | i, y, hy, hdue⟩
        · obtain rfl : x = y := Option.some.inj hy
          exact .inl hdue
        · exact .inr ⟨i, y, hy, hdue⟩

/-- The checks of all entries of a list that do not look at the position. -/
theorem flatMap (items : List ι) {check : ι → List β} {Due : Nat → ι → α → β → Prop}
    (hcheck : ∀ i x, items[i]? = some x → Reports (check x) (Due i x))
    (hapart : ∀ i j x y a b b', Due i x a b → Due j y a b' → i = j) :
    Reports (items.flatMap check) fun a b => ∃ i x, items[i]? = some x ∧ Due i x a b := by
  have hmap : items.mapIdx (fun _ => check) = items.map check :=
    List.ext_getElem (by simp) (by simp)
  rw [List.flatMap_def, ← hmap]
  exact flatten_mapIdx items hcheck hapart

end Reports

/-! ## §2 Violations of a field -/

/-- What can be wrong with a field: its schema handle, one of its payloads, or the variant handle at
a position. -/
inductive Fault where
  | schema
  | enumValues
  | variantIds
  | variant (position : Nat)
  deriving DecidableEq

namespace Field

/-- The field has the fault, which is reported at the location. -/
inductive Wrong (sizes : ArenaSizes) (location : String) (f : Field) : Fault → Problem → Prop where
  | schema (hout : (sizes.schemas : Int) ≤ f.schemaId) :
    f.Wrong sizes location .schema (.danglingSchema location f.schemaId sizes.schemas)
  | enumValues (hmisfit : ¬ (f.kind = .enumerated ↔ f.enumValues.isSome)) :
    f.Wrong sizes location .enumValues (.enumPayload location)
  | variantIds (hmisfit : ¬ (f.kind = .polymorphicList ↔ f.variantIds.isSome)) :
    f.Wrong sizes location .variantIds (.variantPayload location)
  | variant (position : Nat) (h : Handle) (hat : (f.variantIds.getD [])[position]? = some h)
    (hout : h < 0 ∨ (sizes.variants : Int) ≤ h) :
    f.Wrong sizes location (.variant position) (.danglingVariant location h sizes.variants)

/-- The field at a path below a field, where every step is the position of a child, with its
location. -/
def below? (parent : String) : (path : List Nat) → Field → Option (String × Field)
  | [], f => some (parent ++ "/" ++ f.name, f)
  | i :: path, f => f.childList[i]?.bind (below? (parent ++ "/" ++ f.name) path)

variable {sizes : ArenaSizes} {parent location : String} {f : Field}

/-- **One field** is checked for each of its faults. -/
theorem reports_checkField (sizes : ArenaSizes) (location : String) (f : Field) :
    Reports (checkField sizes location f) (f.Wrong sizes location) := by
  have hschema := Reports.check Fault.schema
    (Problem.danglingSchema location f.schemaId sizes.schemas) ((sizes.schemas : Int) ≤ f.schemaId)
  have henum := Reports.check Fault.enumValues (Problem.enumPayload location)
    (¬ (f.kind = .enumerated ↔ f.enumValues.isSome))
  have hvariant := Reports.check Fault.variantIds (Problem.variantPayload location)
    (¬ (f.kind = .polymorphicList ↔ f.variantIds.isSome))
  have hhandles := Reports.flatMap (f.variantIds.getD [])
    (fun i (h : Handle) _ => Reports.check (Fault.variant i)
      (Problem.danglingVariant location h sizes.variants) (h < 0 ∨ (sizes.variants : Int) ≤ h))
    (fun i j _ _ _ _ _ hi hj => Fault.variant.inj (hi.2.1.symm.trans hj.2.1))
  rw [ite_not] at henum hvariant
  -- The four checks report different faults, so no case is reported by two of them.
  refine (((hschema.append henum ?_).append hvariant ?_).append hhandles ?_).congr ?_
  · rintro _ _ _ ⟨-, rfl, -⟩ ⟨-, h, -⟩
    cases h
  · rintro _ _ _ (⟨-, rfl, -⟩ | ⟨-, rfl, -⟩) ⟨-, h, -⟩ <;> cases h
  · rintro _ _ _ ((⟨-, rfl, -⟩ | ⟨-, rfl, -⟩) | ⟨-, rfl, -⟩) ⟨_, _, -, -, h, -⟩ <;> cases h
  · intro fault problem
    constructor
    · rintro (((⟨hout, rfl, rfl⟩ | ⟨hmisfit, rfl, rfl⟩) | ⟨hmisfit, rfl, rfl⟩) |
        ⟨i, h, hat, hout, rfl, rfl⟩)
      · exact .schema hout
      · exact .enumValues hmisfit
      · exact .variantIds hmisfit
      · exact .variant i h hat hout
    · intro hwrong
      cases hwrong with
      | schema hout => exact .inl (.inl (.inl ⟨hout, rfl, rfl⟩))
      | enumValues hmisfit => exact .inl (.inl (.inr ⟨hmisfit, rfl, rfl⟩))
      | variantIds hmisfit => exact .inl (.inr ⟨hmisfit, rfl, rfl⟩)
      | variant i h hat hout => exact .inr ⟨i, h, hat, hout, rfl, rfl⟩

/-- What is wrong at a path below a field. -/
def WrongBelow (sizes : ArenaSizes) (parent : String) (f : Field) (address : List Nat × Fault)
    (problem : Problem) : Prop :=
  ∃ location g, f.below? parent address.1 = some (location, g)
    ∧ g.Wrong sizes location address.2 problem

/-- What is wrong below one of several fields. -/
def WrongAmong (sizes : ArenaSizes) (parent : String) (fs : List Field)
    (address : Nat × List Nat × Fault) (problem : Problem) : Prop :=
  ∃ f, fs[address.1]? = some f ∧ f.WrongBelow sizes parent address.2 problem

theorem reports_checkTrees_of {fs : List Field}
    (h : ∀ f ∈ fs, Reports (checkTree sizes parent f) (f.WrongBelow sizes parent)) :
    Reports (checkTrees sizes parent fs) (WrongAmong sizes parent fs) := by
  rw [checkTrees_eq_flatMap]
  refine (Reports.flatMap fs (fun i f hf => (h f (List.mem_of_getElem? hf)).image
    -- Checks of different trees are told apart by their positions.
    (fun address => (i, address)) fun _ _ heq => (Prod.mk.inj heq).2) ?_).congr ?_
  · rintro i j f g _ _ _ ⟨_, rfl, -⟩ ⟨_, heq, -⟩
    exact (Prod.mk.inj heq).1.symm
  · rintro ⟨i, address⟩ problem
    constructor
    · rintro ⟨j, f, hf, below, heq, hwrong⟩
      obtain ⟨rfl, rfl⟩ := Prod.mk.inj heq
      exact ⟨f, hf, hwrong⟩
    · rintro ⟨f, hf, hwrong⟩
      exact ⟨i, f, hf, address, rfl, hwrong⟩

/-- **A field tree** is checked at every depth, by induction on the tree. -/
theorem reports_checkTree : Reports (checkTree sizes parent f) (f.WrongBelow sizes parent) := by
  induction f using inductionOn generalizing parent with
  | node f ih =>
    have hhere := (reports_checkField sizes (parent ++ "/" ++ f.name) f).image
      (fun fault => (([] : List Nat), fault)) fun _ _ heq => (Prod.mk.inj heq).2
    have hchildren : Reports (checkTrees sizes (parent ++ "/" ++ f.name) f.childList)
        (WrongAmong sizes (parent ++ "/" ++ f.name) f.childList) :=
      reports_checkTrees_of fun c hc => ih c hc
    have hbelow := hchildren.image (fun address => (address.1 :: address.2.1, address.2.2)) (by
      rintro ⟨i, path, fault⟩ ⟨j, path', fault'⟩ heq
      simpa [and_assoc] using heq)
    rw [checkTree_eq]
    -- The address tells which of the two it is: the field itself has the empty path.
    refine (hhere.append hbelow ?_).congr ?_
    · rintro _ _ _ ⟨_, rfl, -⟩ ⟨_, heq, -⟩
      cases heq
    · rintro ⟨path, fault⟩ problem
      cases path with
      | nil => simp [WrongBelow, below?]
      | cons i path =>
        simp only [WrongBelow, WrongAmong, below?, Option.bind_eq_some_iff]
        constructor
        · rintro (⟨_, heq, -⟩ | ⟨⟨j, path', fault'⟩, heq, c, hc, location, g, hg, hwrong⟩)
          · cases heq
          · cases heq
            exact ⟨location, g, ⟨c, hc, hg⟩, hwrong⟩
        · rintro ⟨location, g, ⟨c, hc, hg⟩, hwrong⟩
          exact .inr ⟨(i, path, fault), rfl, c, hc, location, g, hg, hwrong⟩

theorem reports_checkTrees {fs : List Field} :
    Reports (checkTrees sizes parent fs) (WrongAmong sizes parent fs) :=
  reports_checkTrees_of fun _ _ => reports_checkTree

end Field

/-! ## §3 Violations of a cache -/

/-- A record of a cache, by its kind and position. -/
inductive Holder where
  | definition (position : Nat)
  | schema (position : Nat)
  | variant (position : Nat)
  deriving DecidableEq

/-- Where a cache can be wrong: in the name of a record, in the schema handle of a variant itself,
or in a field of a record, at its position and a path below. -/
inductive Violation where
  | name (holder : Holder)
  | link (position : Nat)
  | field (holder : Holder) (position : Nat) (path : List Nat) (fault : Fault)
  deriving DecidableEq

/-- The record that the violation is in. -/
def Violation.holder : Violation → Holder
  | .name holder => holder
  | .link position => .variant position
  | .field holder _ _ _ => holder

/-- What records of all kinds have in common. -/
structure Held where
  location : String
  name : String
  fields : List Field

/-- The violations of a record, the schema handle of a variant apart. -/
inductive Held.Wrong (sizes : ArenaSizes) (holder : Holder) (record : Held) :
    Violation → Problem → Prop where
  | name (hblank : Text.isBlankText record.name = true) :
    record.Wrong sizes holder (.name holder) (.emptyName record.location)
  | field (position : Nat) (path : List Nat) (fault : Fault) (problem : Problem)
    (hwrong :
      Field.WrongAmong sizes record.location record.fields (position, path, fault) problem) :
    record.Wrong sizes holder (.field holder position path fault) problem

/-- A definition is reported by its tag. -/
def Definition.held (d : Definition) : Held :=
  ⟨"definition " ++ d.tagName, d.tagName, d.fields⟩

/-- A schema is reported by its position and its name. -/
def Schema.held (position : Nat) (s : Schema) : Held :=
  ⟨"schema #" ++ toString position ++ " " ++ s.fullName, s.fullName, s.fields⟩

/-- So is a variant. -/
def Variant.held (position : Nat) (v : Variant) : Held :=
  ⟨"variant #" ++ toString position ++ " " ++ v.fullName, v.fullName, v.fields⟩

namespace Cache

/-- **The violations of a cache**, each with its entry: those of its records, and the schema handles
of variants that are beyond the arena. -/
inductive Violates (c : Cache) : Violation → Problem → Prop where
  | definition (i : Nat) (d : Definition) (hd : c.definitions[i]? = some d) {violation : Violation}
    {problem : Problem} (hwrong : d.held.Wrong c.sizes (.definition i) violation problem) :
    c.Violates violation problem
  | schema (i : Nat) (s : Schema) (hs : c.schemas[i]? = some s) {violation : Violation}
    {problem : Problem} (hwrong : (s.held i).Wrong c.sizes (.schema i) violation problem) :
    c.Violates violation problem
  | variant (i : Nat) (v : Variant) (hv : c.variants[i]? = some v) {violation : Violation}
    {problem : Problem} (hwrong : (v.held i).Wrong c.sizes (.variant i) violation problem) :
    c.Violates violation problem
  | link (i : Nat) (v : Variant) (hv : c.variants[i]? = some v)
    (hout : (c.schemas.length : Int) ≤ v.schemaId) :
    c.Violates (.link i) (.danglingSchema (v.held i).location v.schemaId c.schemas.length)

end Cache

section Records

variable {sizes : ArenaSizes} {record : Held} {holder : Holder} {violation : Violation}
  {problem : Problem}

theorem Held.Wrong.holder_eq (h : record.Wrong sizes holder violation problem) :
    violation.holder = holder := by
  cases h <;> rfl

theorem reports_checkName (holder : Holder) (record : Held) :
    Reports (checkName record.location record.name) fun violation problem =>
    Text.isBlankText record.name = true ∧ violation = Violation.name holder
      ∧ problem = .emptyName record.location :=
  Reports.check (Violation.name holder) _ _

theorem reports_fields (sizes : ArenaSizes) (holder : Holder) (record : Held) :
    Reports (checkTrees sizes record.location record.fields)
    fun violation problem => ∃ address : Nat × List Nat × Fault,
      Violation.field holder address.1 address.2.1 address.2.2 = violation
        ∧ Field.WrongAmong sizes record.location record.fields address problem :=
  Field.reports_checkTrees.image
    (fun address => Violation.field holder address.1 address.2.1 address.2.2)
    fun a b heq => by simpa [Prod.ext_iff, and_assoc] using heq

theorem Held.wrong_iff : record.Wrong sizes holder violation problem ↔
    (Text.isBlankText record.name = true ∧ violation = .name holder
        ∧ problem = .emptyName record.location)
      ∨ ∃ address : Nat × List Nat × Fault,
        Violation.field holder address.1 address.2.1 address.2.2 = violation
          ∧ Field.WrongAmong sizes record.location record.fields address problem := by
  constructor
  · rintro (hblank | ⟨i, path, fault, _, hwrong⟩)
    · exact .inl ⟨hblank, rfl, rfl⟩
    -- A record is wrong in its name or somewhere among its fields.
    · exact .inr ⟨(i, path, fault), rfl, hwrong⟩
  · rintro (⟨hblank, rfl, rfl⟩ | ⟨⟨i, path, fault⟩, rfl, hwrong⟩)
    · exact .name hblank
    · exact .field i path fault problem hwrong

/-- **A record** is checked for its name and for its fields. -/
theorem Held.reports (sizes : ArenaSizes) (holder : Holder) (record : Held) :
    Reports
      (checkName record.location record.name ++ checkTrees sizes record.location record.fields)
      (record.Wrong sizes holder) := by
  have hname := reports_checkName holder record
  have hfields := reports_fields sizes holder record
  refine (hname.append hfields ?_).congr fun _ _ => Held.wrong_iff.symm
  rintro _ _ _ ⟨-, rfl, -⟩ ⟨_, heq, -⟩
  cases heq

/-- The violations of a variant, its own schema handle included. -/
def Variant.Wrong (sizes : ArenaSizes) (i : Nat) (v : Variant) (violation : Violation)
    (problem : Problem) : Prop :=
  (v.held i).Wrong sizes (.variant i) violation problem
    ∨ (sizes.schemas : Int) ≤ v.schemaId ∧ violation = .link i
      ∧ problem = .danglingSchema (v.held i).location v.schemaId sizes.schemas

theorem Variant.Wrong.holder_eq {i : Nat} {v : Variant} (h : v.Wrong sizes i violation problem) :
    violation.holder = .variant i := by
  rcases h with h | ⟨-, rfl, -⟩
  · exact h.holder_eq
  · rfl

/-- **A variant** is checked for its own schema handle in between. -/
theorem Variant.reports (sizes : ArenaSizes) (i : Nat) (v : Variant) :
    Reports (Cache.checkVariant sizes i v) (v.Wrong sizes i) := by
  have hlink := Reports.check (Violation.link i)
    (Problem.danglingSchema (v.held i).location v.schemaId sizes.schemas)
    ((sizes.schemas : Int) ≤ v.schemaId)
  have hname := reports_checkName (.variant i) (v.held i)
  have hfields := reports_fields sizes (.variant i) (v.held i)
  refine ((hname.append hlink ?_).append hfields ?_).congr fun violation problem => ?_
  · rintro _ _ _ ⟨-, rfl, -⟩ ⟨-, heq, -⟩
    cases heq
  · rintro _ _ _ (⟨-, rfl, -⟩ | ⟨-, rfl, -⟩) ⟨_, heq, -⟩ <;> cases heq
  · rw [Variant.Wrong, Held.wrong_iff, or_right_comm]

end Records

namespace Cache

variable {c : Cache}

/-- **The report of a cache** has one entry for each of its violations. -/
theorem reports_problems (c : Cache) : Reports c.problems c.Violates := by
  have hdefinitions := Reports.flatMap c.definitions
    (fun i d _ => d.held.reports c.sizes (.definition i))
    fun i j _ _ _ _ _ hi hj => Holder.definition.inj (hi.holder_eq.symm.trans hj.holder_eq)
  have hschemas := Reports.flatten_mapIdx c.schemas
    (fun i s _ => (s.held i).reports c.sizes (.schema i))
    fun i j _ _ _ _ _ hi hj => Holder.schema.inj (hi.holder_eq.symm.trans hj.holder_eq)
  have hvariants := Reports.flatten_mapIdx c.variants
    (fun i v _ => v.reports c.sizes i)
    fun i j _ _ _ _ _ hi hj => Holder.variant.inj (hi.holder_eq.symm.trans hj.holder_eq)
  -- The records of different kinds are different records.
  refine ((hdefinitions.append hschemas ?_).append hvariants ?_).congr fun violation problem => ?_
  -- Each violation names the record that holds it.
  · rintro _ _ _ ⟨i, d, -, hwrong⟩ ⟨j, s, -, hwrong'⟩
    cases hwrong.holder_eq.symm.trans hwrong'.holder_eq
  · rintro _ _ _ (⟨i, _, -, hwrong⟩ | ⟨i, _, -, hwrong⟩) ⟨j, v, -, hwrong'⟩ <;>
      cases hwrong.holder_eq.symm.trans hwrong'.holder_eq
  · constructor
    · rintro ((⟨i, d, hd, hwrong⟩ | ⟨i, s, hs, hwrong⟩) | ⟨i, v, hv, hwrong | ⟨hout, rfl, rfl⟩⟩)
      · exact .definition i d hd hwrong
      · exact .schema i s hs hwrong
      · exact .variant i v hv hwrong
      · exact .link i v hv hout
    · rintro (⟨i, d, hd, hwrong⟩ | ⟨i, s, hs, hwrong⟩ | ⟨i, v, hv, hwrong⟩ | ⟨i, v, hv, hout⟩)
      · exact .inl (.inl ⟨i, d, hd, hwrong⟩)
      · exact .inl (.inr ⟨i, s, hs, hwrong⟩)
      · exact .inr ⟨i, v, hv, .inl hwrong⟩
      · exact .inr ⟨i, v, hv, .inr ⟨hout, rfl, rfl⟩⟩

/-! ## §4 Validation -/

/-- The handles of the field lead to entries of the cache: the one of its schema unless there is
none, and those of its variants. -/
structure Resolves (c : Cache) (f : Field) : Prop where
  schema : 0 ≤ f.schemaId → ∃ s, c.schema? f.schemaId = some s
  variants : ∀ h ∈ f.variantIds.getD [], ∃ v, c.variant? h = some v

theorem resolves_of_handlesIn {f : Field} (h : f.HandlesIn c.sizes) : c.Resolves f where
  schema := fun hnonneg => exists_entryAt?_eq_some hnonneg h.schema
  variants := fun i hi =>
    exists_entryAt?_eq_some (h.variants i hi).1 (h.variants i hi).2

/-- **Validation is sound and complete**: it finds nothing exactly in a sound cache.  Then all
handles can be followed, wherever they are met.  In any cache it finds one problem for each
violation. -/
theorem validation_exact (c : Cache) :
    (c.problems = [] ↔ c.Sound)
      ∧ (c.problems = [] → (∀ f ∈ c.heldFields, f.Everywhere c.Resolves)
          ∧ ∀ v ∈ c.variants, 0 ≤ v.schemaId → ∃ s, c.schema? v.schemaId = some s)
      ∧ Reports c.problems c.Violates := by
  refine ⟨problems_eq_nil_iff, fun hnone => ?_, c.reports_problems⟩
  have hsound : c.Sound := problems_eq_nil_iff.1 hnone
  refine ⟨fun f hf => ?_, fun v hv hnonneg => ?_⟩
  · exact (hsound.fields f hf).mono fun _ => resolves_of_handlesIn
  · exact exists_entryAt?_eq_some hnonneg (hsound.variants v hv)

/-- A crate whose items, two levels below its definition, have the given variants. -/
def crateCache (handles : List Handle) : Cache where
  definitions :=
    [⟨"CrateDef", "CrateDef", "Def", false, false, "Mod.CrateDef",
      [(Field.nested "holder" "Mod.Holder" noHandle).withChildren
        [.polymorphicList "items" "List<Mod.Item>" 0 handles]]⟩]
  catalog := .empty
  schemas := [⟨"Mod.Item", []⟩]
  variants := [⟨"Apple", 0, false, []⟩]
  castTable := .empty

/-- The only variant is that of an apple. -/
theorem validation_exact_crate :
    (crateCache [0]).problems = [] ∧ (crateCache [0]).Sound
      ∧ (∀ f ∈ (crateCache [0]).heldFields, f.Everywhere (crateCache [0]).Resolves)
      ∧ Reports (crateCache [3, 0, 3]).problems (crateCache [3, 0, 3]).Violates := by
  have hnone : (crateCache [0]).problems = [] := by decide
  obtain ⟨hexact, hfollow, -⟩ := validation_exact (crateCache [0])
  exact ⟨hnone, hexact.1 hnone, (hfollow hnone).1, (validation_exact (crateCache [3, 0, 3])).2.2⟩

/-- A handle that is listed twice is reported twice. -/
example : (crateCache [3, 0, 3]).problems =
    [.danglingVariant "definition CrateDef/holder/items" 3 1,
      .danglingVariant "definition CrateDef/holder/items" 3 1] := by decide

end Cache

end SchemaGraph
