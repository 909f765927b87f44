import SchemaGraph.Proofs.Json.Exact
import SchemaGraph.Proofs.Model.Documents
import SchemaGraph.Proofs.Model.FieldTree

/-!
# Caches Read Back

Reading the document of a cache gives the cache.  What is left out of a document is what reading
puts in its place, at every depth; numbers only have to fit what they are read as.  The numbers of
a cache that was read do.

- `Recovers.list`, `Recovers.map`: lists and maps of what is recovered
- `Field.recovers`: fields with children nested to any depth
- `Cache.recovers`: caches
- `Ensures.cache`: caches that were read
-/

namespace SchemaGraph

open Document Json

/-! ## §1 Parts of documents -/

/-- The document of a value is exact, and reading it gives the value. -/
structure Recovers {α : Type} (read : Json → Option α) (write : α → Json) (x : α) : Prop where
  exact_write : Exact (write x)
  read_write : read (write x) = some x

theorem mapM_map_eq_some {α β : Type} {read : β → Option α} {write : α → β} {xs : List α}
    (h : ∀ x ∈ xs, read (write x) = some x) : (xs.map write).mapM read = some xs := by
  induction xs with
  | nil => rfl
  | cons x xs ih =>
    have hrest := ih fun y hy => h y (List.mem_cons_of_mem _ hy)
    rw [List.map_cons, List.mapM_cons, h x List.mem_cons_self, hrest]
    rfl

section Slots

variable {α : Type} (read : Json → Option α) (default : α) (j : Json)

@[simp] theorem required_some : required read (some j) = read j := rfl

@[simp] theorem defaulted_some : defaulted default read (some j) = read j := rfl

end Slots

namespace Recovers

variable {α : Type} {read : Json → Option α} {write : α → Json}

theorem text (s : String) : Recovers (text? : Json → Option String) .str s := ⟨.str s, rfl⟩

theorem flag (b : Bool) : Recovers (flag? : Json → Option Bool) .bool b := ⟨.bool b, rfl⟩

/-- A word is recovered if it is told from the other words. -/
theorem word {ofWord? : String → Option α} {toWord : α → String} {x : α}
    (h : ofWord? (toWord x) = some x) :
    Recovers (wordOf? ofWord?) (fun x => .str (toWord x)) x where
  exact_write := .str _
  read_write := by
    show (ofOption (ofWord? (toWord x)) : Option α) = some x
    rw [h]
    rfl

theorem integerIn {low high n : Int} (hlow : low ≤ n) (hhigh : n ≤ high)
    (hleast : -0x8000000000000000 ≤ low) (hgreatest : high ≤ 0xFFFFFFFFFFFFFFFF) :
    Recovers (integerIn? low high : Json → Option Int) .int n where
  exact_write := .int (Int.le_trans hleast hlow) (Int.le_trans hhigh hgreatest)
  read_write := if_pos ⟨hlow, hhigh⟩

theorem naturalIn {high n : Nat} (hhigh : n ≤ high) (hgreatest : high ≤ 0xFFFFFFFFFFFFFFFF) :
    Recovers (naturalIn? high : Json → Option Nat) (fun n => .int n) n where
  exact_write := .int (by omega) (by omega)
  read_write := if_pos hhigh

/-- **Lists** are recovered item by item. -/
theorem list {xs : List α} (h : ∀ x ∈ xs, Recovers read write x) :
    Recovers (listOf? read) (fun xs => .arr (xs.map write)) xs where
  exact_write := .arr (by simpa using fun x hx => (h x hx).exact_write)
  read_write := mapM_map_eq_some fun x hx => (h x hx).read_write

/-- **Maps** are recovered entry by entry. -/
theorem map {m : SortedMap α} (h : ∀ e ∈ m.entries, Recovers read write e.2) :
    Recovers (mapOf? read) (SortedMap.toJson write) m where
  exact_write := by
    refine .obj fun e he => ?_
    obtain ⟨x, hx, rfl⟩ := List.mem_map.1 he
    exact (h x hx).exact_write
  read_write := by
    have hentries : (m.entries.map fun e => (e.1, write e.2)).mapM
        (fun e => do return (e.1, ← read e.2)) = some m.entries := by
      refine mapM_map_eq_some fun e he => ?_
      rw [(h e he).read_write]
      rfl
    -- The entries come back in their order, so that the map is the same.
    show (do return SortedMap.ofList (← (m.entries.map fun e => (e.1, write e.2)).mapM
      fun e => do return (e.1, ← read e.2)) : Option (SortedMap α)) = some m
    rw [hentries]
    exact congrArg some m.ofList_entries

/-- A part that is left out when there is none is recovered as none. -/
theorem optional {x : Option α} (h : ∀ y ∈ x, Recovers read write y)
    (hnull : ∀ y, write y ≠ .null) : Document.optional read (x.map write) = some x := by
  cases x with
  | none => rfl
  | some y =>
    have hpresent : present? (write y) = some (some (write y)) := by
      have hy := hnull y
      cases hw : write y <;> first | rfl | exact absurd hw hy
    simp only [Document.optional, Option.map_some, hpresent, Option.bind_eq_bind, Option.bind_some,
      (h y rfl).read_write]
    rfl

theorem exact_map {x : Option α} (h : ∀ y ∈ x, Recovers read write y) :
    ∀ j ∈ x.map write, Exact j := by
  intro j hj
  obtain ⟨y, hy, rfl⟩ := Option.map_eq_some_iff.1 hj
  exact (h y hy).exact_write

theorem texts (xs : List String) :
    Recovers (listOf? text? : Json → Option (List String)) Field.textsToJson xs :=
  list fun s _ => text s

end Recovers

/-- A record is exact if its parts are. -/
theorem exact_entriesOf (names : List String) {slots : List (Option Json)}
    (h : ∀ slot ∈ slots, ∀ j ∈ slot, Exact j) : Exact (.obj (entriesOf names slots)) :=
  .obj fun e he => h (some e.2) (mem_of_mem_entriesOf he) e.2 rfl

/-! ## §2 Handles -/

/-- The handle has 32 bits. -/
def Handle.InRange (h : Handle) : Prop := -0x80000000 ≤ h ∧ h ≤ 0x7FFFFFFF

theorem Handle.recovers {h : Handle} (hrange : Handle.InRange h) :
    Recovers (int32? : Json → Option Int) .int h :=
  .integerIn hrange.1 hrange.2 (by decide) (by decide)

/-! ## §3 Fields -/

namespace Field

/-- Every handle has 32 bits, at every depth. -/
def InRange (f : Field) : Prop :=
  f.Everywhere fun g => Handle.InRange g.schemaId ∧ ∀ v ∈ g.variantIds.getD [], Handle.InRange v

/-- The children of a field are nested in its document. -/
theorem height_children_lt {f : Field} {cs : List Field} (h : f.children = some cs) :
    (fieldsToJson cs).height < f.toJson.height := by
  rw [toJson_eq]
  refine Nat.lt_succ_of_le (height_le_heightEntries (e := ("child_fields", fieldsToJson cs)) ?_)
  simp [entriesOf, keys, slots, h]

/-- **Fields** are recovered, with children nested to any depth. -/
theorem recovers_readWithin {f : Field} (hrange : f.InRange) {fuel : Nat}
    (hfuel : f.toJson.height < fuel) : Recovers (readWithin? fuel) toJson f := by
  induction f using inductionOn generalizing fuel with
  | node f ih =>
    obtain ⟨fuel, rfl⟩ : ∃ n, fuel = n + 1 := ⟨fuel - 1, by omega⟩
    obtain ⟨hschema, hvariants⟩ := hrange.here
    -- The children nest less deep, and their handles fit as well.
    have hchildren : ∀ cs ∈ f.children, Recovers (listOf? (readWithin? fuel)) fieldsToJson cs := by
      intro cs hcs
      have hheight := height_children_lt hcs
      have hlist : Recovers (listOf? (readWithin? fuel)) (fun cs => .arr (cs.map toJson)) cs := by
        refine .list fun c hc => ?_
        have hmem : c ∈ f.childList := by rwa [childList, hcs]
        refine ih c hmem (hrange.child hmem) ?_
        have hc' : c.toJson.height ≤ heightItems (cs.map toJson) :=
          height_le_heightItems (List.mem_map_of_mem hc)
        rw [fieldsToJson, listToJson_eq, height] at hheight
        omega
      -- Fields write their children as lists of values do.
      have hwrite : fieldsToJson = fun cs => .arr (cs.map toJson) :=
        funext fun cs => congrArg Json.arr (listToJson_eq cs)
      rw [hwrite]
      exact hlist
    -- The other parts do not nest.
    have hids : ∀ vs ∈ f.variantIds, Recovers (listOf? int32?) handlesToJson vs := by
      intro vs hvs
      refine .list fun v hv => Handle.recovers (hvariants v ?_)
      rwa [hvs]
    have henum : ∀ xs ∈ f.enumValues, Recovers (listOf? text?) textsToJson xs :=
      fun xs _ => .texts xs
    have hkind : Recovers (wordOf? FieldKind.ofWord?) (fun k => .str k.word) f.kind :=
      .word (by cases f.kind <;> rfl)
    refine ⟨?_, ?_⟩
    · rw [toJson_eq]
      refine exact_entriesOf keys ?_
      have hhint : ∀ j ∈ (if f.hint = "" then none else some (Json.str f.hint)), Exact j := by
        split <;> simp
      simp only [slots, List.forall_mem_cons]
      exact ⟨by simp, by simp, by simp, Recovers.exact_map henum, Recovers.exact_map hids,
        by simpa using (Handle.recovers hschema).exact_write, Recovers.exact_map hchildren, hhint,
        by simp, by simp, List.forall_mem_nil _⟩
    · -- An empty hint is left out and comes back as the default.
      have hhint : defaulted "" text? (if f.hint = "" then none else some (Json.str f.hint)) =
          some f.hint := by
        by_cases hempty : f.hint = ""
        · rw [if_pos hempty, hempty]
          rfl
        · rw [if_neg hempty]
          rfl
      rw [readWithin?, fields?_toJson, slots]
      simp only [required_some, hkind.read_write,
        Recovers.optional henum (by simp [textsToJson]),
        Recovers.optional hids (by simp [handlesToJson]),
        Recovers.optional hchildren (by simp [fieldsToJson]), hhint, defaulted_some,
        (Handle.recovers hschema).read_write, (Recovers.text _).read_write,
        (Recovers.flag _).read_write, Option.bind_eq_bind, Option.bind_some]
      cases f
      rfl

theorem recovers {f : Field} (hrange : f.InRange) : Recovers read? toJson f := by
  have h := recovers_readWithin hrange (Nat.lt_succ_self f.toJson.height)
  exact ⟨h.exact_write, h.read_write⟩

theorem recovers_list {fs : List Field} (hrange : ∀ f ∈ fs, f.InRange) :
    Recovers (listOf? read?) fieldsToJson fs := by
  have hwrite : fieldsToJson = fun fs => .arr (fs.map toJson) :=
    funext fun fs => congrArg Json.arr (listToJson_eq fs)
  rw [hwrite]
  exact .list fun f hf => recovers (hrange f hf)

end Field

/-! ## §4 Caches -/

theorem Schema.recovers {s : Schema} (hrange : ∀ f ∈ s.fields, f.InRange) :
    Recovers Schema.read? Schema.toJson s := by
  have hfs := Field.recovers_list hrange
  have hfields : fields? ["full_name", "fields"] s.toJson =
      some [some (.str s.fullName), some (Field.fieldsToJson s.fields)] := rfl
  refine ⟨.obj (by simp [hfs.exact_write]), ?_⟩
  rw [Schema.read?, hfields]
  simp only [required_some, (Recovers.text _).read_write, hfs.read_write, Option.bind_eq_bind,
    Option.bind_some]
  rfl

/-- Every handle of the variant has 32 bits. -/
structure Variant.InRange (v : Variant) : Prop where
  schemaId : Handle.InRange v.schemaId
  fields : ∀ f ∈ v.fields, f.InRange

theorem Variant.recovers {v : Variant} (hrange : v.InRange) :
    Recovers Variant.read? Variant.toJson v := by
  have hschema := Handle.recovers hrange.schemaId
  have hfs := Field.recovers_list hrange.fields
  have hfields : fields? ["full_name", "schema_id", "is_special_kind", "fields"] v.toJson =
      some [some (.str v.fullName), some (.int v.schemaId), some (.bool v.isSpecialKind),
        some (Field.fieldsToJson v.fields)] := rfl
  refine ⟨.obj (by simp [hfs.exact_write, hschema.exact_write]), ?_⟩
  rw [Variant.read?, hfields]
  simp only [required_some, defaulted_some, (Recovers.text _).read_write, hschema.read_write,
    (Recovers.flag _).read_write, hfs.read_write, Option.bind_eq_bind, Option.bind_some]
  rfl

theorem Definition.recovers {d : Definition} (hrange : ∀ f ∈ d.fields, f.InRange) :
    Recovers Definition.read? Definition.toJson d := by
  have hfs := Field.recovers_list hrange
  have hfields : fields? ["tag_name", "name", "parent_name", "is_abstract",
      "ignore_validation_errors", "full_name", "fields"] d.toJson =
      some [some (.str d.tagName), some (.str d.name), some (.str d.parentName),
        some (.bool d.isAbstract), some (.bool d.ignoreValidationErrors),
        some (.str d.fullName), some (Field.fieldsToJson d.fields)] := rfl
  refine ⟨.obj (by simp [hfs.exact_write]), ?_⟩
  rw [Definition.read?, hfields]
  simp only [required_some, defaulted_some, (Recovers.text _).read_write,
    (Recovers.flag _).read_write, hfs.read_write, Option.bind_eq_bind, Option.bind_some]
  rfl

/-- Every handle of the cache has 32 bits. -/
structure Cache.InRange (c : Cache) : Prop where
  definitions : ∀ d ∈ c.definitions, ∀ f ∈ d.fields, f.InRange
  schemas : ∀ s ∈ c.schemas, ∀ f ∈ s.fields, f.InRange
  variants : ∀ v ∈ c.variants, v.InRange

/-- **Caches** are recovered. -/
theorem Cache.recovers {c : Cache} (hrange : c.InRange) : Recovers Cache.read? Cache.toJson c := by
  have hdefinitions := Recovers.list fun d hd => Definition.recovers (hrange.definitions d hd)
  have hschemas := Recovers.list fun s hs => Schema.recovers (hrange.schemas s hs)
  have hvariants := Recovers.list fun v hv => Variant.recovers (hrange.variants v hv)
  have hcatalog :
      Recovers (mapOf? (listOf? text?)) (SortedMap.toJson Field.textsToJson) c.catalog :=
    .map fun e _ => .texts e.2
  have hcast : Recovers (mapOf? text?) (SortedMap.toJson .str) c.castTable :=
    .map fun e _ => .text e.2
  have hfields : fields? ["definitions", "enumerated_value_catalog", "schemas", "variants",
      "cast_table"] c.toJson =
      some [some (.arr (c.definitions.map Definition.toJson)),
        some (c.catalog.toJson Field.textsToJson), some (.arr (c.schemas.map Schema.toJson)),
        some (.arr (c.variants.map Variant.toJson)), some (c.castTable.toJson .str)] := rfl
  refine ⟨.obj ?_, ?_⟩
  · simp [hdefinitions.exact_write, hschemas.exact_write, hvariants.exact_write,
      hcatalog.exact_write, hcast.exact_write]
  · rw [Cache.read?, hfields]
    simp only [defaulted_some, hdefinitions.read_write, hcatalog.read_write, hschemas.read_write,
      hvariants.read_write, hcast.read_write, Option.bind_eq_bind, Option.bind_some]
    rfl

/-! ## §5 What is read -/

/-- Whatever is read is as the predicate says. -/
def Ensures {α : Type} (read : Json → Option α) (P : α → Prop) : Prop :=
  ∀ j a, read j = some a → P a

theorem exists_of_mapM_eq_some {α β : Type} {read : α → Option β} {xs : List α} {ys : List β}
    (h : xs.mapM read = some ys) {y : β} (hy : y ∈ ys) : ∃ x ∈ xs, read x = some y := by
  induction xs generalizing ys with
  | nil =>
    obtain rfl := Option.some.inj h
    cases hy
  | cons x xs ih =>
    -- The first value comes from the first element, every other one from the rest.
    rw [List.mapM_cons] at h
    obtain ⟨y', hy', hrest⟩ := Option.bind_eq_some_iff.1 h
    obtain ⟨ys', hys', hcons⟩ := Option.bind_eq_some_iff.1 hrest
    obtain rfl := Option.some.inj hcons
    rcases List.mem_cons.1 hy with rfl | hy
    · exact ⟨x, List.mem_cons_self, hy'⟩
    · obtain ⟨x', hx', hread⟩ := ih hys' hy
      exact ⟨x', List.mem_cons_of_mem _ hx', hread⟩

namespace Ensures

variable {α : Type} {read : Json → Option α} {P : α → Prop} {slot : Option Json}

theorem handle : Ensures int32? Handle.InRange := by
  intro j n h
  obtain ⟨k, -, hk⟩ := Option.bind_eq_some_iff.1 h
  split at hk
  next hrange =>
    obtain rfl := Option.some.inj hk
    exact hrange
  next => cases hk

theorem list (h : Ensures read P) : Ensures (listOf? read) fun xs => ∀ x ∈ xs, P x := by
  intro j xs hxs x hx
  obtain ⟨items, -, hitems⟩ := Option.bind_eq_some_iff.1 hxs
  obtain ⟨item, -, hitem⟩ := exists_of_mapM_eq_some hitems hx
  exact h item x hitem

theorem required (h : Ensures read P) {x : α} (hx : Document.required read slot = some x) :
    P x := by
  cases slot with
  | none => cases hx
  | some j => exact h j x hx

theorem defaulted (h : Ensures read P) {default x : α} (hdefault : P default)
    (hx : Document.defaulted default read slot = some x) : P x := by
  cases slot with
  | none =>
    obtain rfl := Option.some.inj hx
    exact hdefault
  | some j => exact h j x hx

theorem optional (h : Ensures read P) {x : Option α}
    (hx : Document.optional read slot = some x) : ∀ y ∈ x, P y := by
  rintro y rfl
  cases slot with
  | none => cases hx
  | some j =>
    -- A value that is there is either null, and then nothing is read, or has been read.
    obtain ⟨present, -, hpresent⟩ := Option.bind_eq_some_iff.1 hx
    cases present with
    | none => cases hpresent
    | some j' =>
      obtain ⟨y', hy', heq⟩ := Option.bind_eq_some_iff.1 hpresent
      obtain rfl := Option.some.inj (Option.some.inj heq)
      exact h j' _ hy'

/-- A list that may be left out has nothing in it then. -/
theorem optional_list (h : Ensures read P) {xs : Option (List α)}
    (hxs : Document.optional (listOf? read) slot = some xs) : ∀ x ∈ xs.getD [], P x := by
  cases xs with
  | none => exact nofun
  | some xs => exact h.list.optional hxs xs rfl

theorem inRange_noHandle : Handle.InRange noHandle := ⟨by decide, by decide⟩

/-- Fields are read with handles of 32 bits, at every depth. -/
theorem fieldWithin (depth : Nat) : Ensures (Field.readWithin? depth) Field.InRange := by
  induction depth with
  | zero => exact nofun
  | succ depth ih =>
    intro j f h
    rw [Field.readWithin?] at h
    split at h
    next hfields =>
      -- Every handle of the field has been read as one, or it is the missing handle.
      simp only [Option.bind_eq_bind, Option.bind_eq_some_iff, Option.pure_def,
        Option.some.injEq] at h
      obtain ⟨_, -, _, -, _, -, _, -, _, hvariants, _, hschema, _, hchildren, _, -, _, -, _, -,
        rfl⟩ := h
      have hschema' := handle.defaulted inRange_noHandle hschema
      exact .node _ ⟨hschema', handle.optional_list hvariants⟩ (ih.optional_list hchildren)
    next => cases h

theorem field : Ensures Field.read? Field.InRange := fun j f h => fieldWithin (j.height + 1) j f h

theorem schema : Ensures Schema.read? fun s => ∀ f ∈ s.fields, f.InRange := by
  intro j s h
  rw [Schema.read?] at h
  split at h
  next =>
    simp only [Option.bind_eq_bind, Option.bind_eq_some_iff, Option.pure_def,
      Option.some.injEq] at h
    obtain ⟨_, -, _, hfields, rfl⟩ := h
    exact field.list.required hfields
  next => cases h

theorem variant : Ensures Variant.read? Variant.InRange := by
  intro j v h
  rw [Variant.read?] at h
  split at h
  next =>
    simp only [Option.bind_eq_bind, Option.bind_eq_some_iff, Option.pure_def,
      Option.some.injEq] at h
    obtain ⟨_, -, _, hschema, _, -, _, hfields, rfl⟩ := h
    exact ⟨handle.defaulted inRange_noHandle hschema,
      field.list.defaulted (List.forall_mem_nil _) hfields⟩
  next => cases h

theorem definition : Ensures Definition.read? fun d => ∀ f ∈ d.fields, f.InRange := by
  intro j d h
  rw [Definition.read?] at h
  split at h
  next =>
    simp only [Option.bind_eq_bind, Option.bind_eq_some_iff, Option.pure_def,
      Option.some.injEq] at h
    obtain ⟨_, -, _, -, _, -, _, -, _, -, _, -, _, hfields, rfl⟩ := h
    exact field.list.required hfields
  next => cases h

/-- **Caches that were read** have handles of 32 bits, so their documents can be read again. -/
theorem cache : Ensures Cache.read? Cache.InRange := by
  intro j c h
  rw [Cache.read?] at h
  split at h
  next =>
    simp only [Option.bind_eq_bind, Option.bind_eq_some_iff, Option.pure_def,
      Option.some.injEq] at h
    obtain ⟨_, hdefinitions, _, -, _, hschemas, _, hvariants, _, -, rfl⟩ := h
    exact ⟨definition.list.defaulted (List.forall_mem_nil _) hdefinitions,
      schema.list.defaulted (List.forall_mem_nil _) hschemas,
      variant.list.defaulted (List.forall_mem_nil _) hvariants⟩
  next => cases h

end Ensures

end SchemaGraph
