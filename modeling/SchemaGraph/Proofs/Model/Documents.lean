import SchemaGraph.Proofs.Json.Text
import SchemaGraph.Proofs.SortedMap
import SchemaGraph.Model.Encoding

/-!
# Faithful Documents

A document that was written from a record can be read as that record only.  It need not be
readable: a number may be too great for what reads it, and records may be nested too deep.  What
is read is never something else, though.

- `fields?_entriesOf`: the parts of a record, whether or not some of them are left out
- `Faithful.list`, `Faithful.map`: lists and maps of what is read faithfully
- `Cache.faithful`: caches with fields nested to any depth
-/

namespace SchemaGraph

open Document Json

/-! ## §1 Records

A record is written as the entries of those parts that have a value. -/

theorem fields?_obj (names : List String) (entries : List (String × Json)) :
    fields? names (Json.obj entries) =
      if knownOnce names entries then some (names.map fun name => entries.lookup name)
      else none := rfl

/-- The entries of a record under some names, of which those without a value are left out. -/
def entriesOf : List String → List (Option Json) → List (String × Json)
  | name :: names, slot :: slots => (slot.map (name, ·)).toList ++ entriesOf names slots
  | _, _ => []

theorem optionalEntry_eq {α : Type} (key : String) (encode : α → Json) (x : Option α) :
    Field.optionalEntry key encode x = entriesOf [key] [x.map encode] := by
  cases x <;> rfl

theorem keys_entriesOf (names : List String) (slots : List (Option Json)) :
    ((entriesOf names slots).map (·.1)).Sublist names := by
  induction names generalizing slots with
  | nil => exact .slnil
  | cons name names ih =>
    rcases slots with _ | ⟨_ | j, slots⟩
    · exact List.nil_sublist _
    · exact (ih slots).cons name
    · exact (ih slots).cons_cons name

theorem mem_of_mem_entriesOf {names : List String} {slots : List (Option Json)}
    {e : String × Json} (h : e ∈ entriesOf names slots) : some e.2 ∈ slots := by
  induction names generalizing slots with
  | nil => cases h
  | cons name names ih =>
    rcases slots with _ | ⟨_ | j, slots⟩
    · cases h
    · exact List.mem_cons_of_mem _ (ih h)
    · rcases List.mem_cons.1 h with rfl | h
      · exact List.mem_cons_self
      · exact List.mem_cons_of_mem _ (ih h)

theorem lookup_entriesOf {names : List String} {slots : List (Option Json)}
    (hlength : slots.length = names.length) (hnames : names.Nodup) :
    (names.map fun name => (entriesOf names slots).lookup name) = slots := by
  induction names generalizing slots with
  | nil => exact (List.length_eq_zero_iff.1 hlength).symm
  | cons name names ih =>
    obtain ⟨slot, slots, rfl⟩ := List.exists_cons_of_length_eq_add_one hlength
    obtain ⟨hname, hnames⟩ := List.nodup_cons.1 hnames
    have hrest := ih (Nat.succ.inj hlength) hnames
    rw [List.map_cons]
    congr 1
    · -- The name stands for no other entry.
      have hnone : (entriesOf names slots).lookup name = none := by
        refine List.lookup_eq_none_iff.2 fun e he => ?_
        have hmem := (keys_entriesOf names slots).mem (List.mem_map_of_mem he)
        simp only [bne_iff_ne]
        rintro rfl
        exact hname hmem
      cases slot with
      | none => exact hnone
      | some j => exact List.lookup_cons_self
    -- The other names are looked up behind this entry.
    · refine (List.map_congr_left fun n hn => ?_).trans hrest
      have hne : (n == name) = false := by
        rw [beq_eq_false_iff_ne]
        rintro rfl
        exact hname hn
      cases slot with
      | none => rfl
      | some j =>
        show ((name, j) :: entriesOf names slots).lookup n = _
        rw [List.lookup_cons, hne]

/-- Reading finds the parts that a record was written from. -/
theorem fields?_entriesOf {names : List String} {slots : List (Option Json)}
    (hlength : slots.length = names.length) (hnames : names.Nodup) :
    fields? names (Json.obj (entriesOf names slots)) = some slots := by
  have honce : knownOnce names (entriesOf names slots) = true := by
    refine List.all_eq_true.2 fun name _ => decide_eq_true ?_
    have hcount := List.nodup_iff_count.1 (hnames.sublist (keys_entriesOf names slots)) name
    rwa [List.count, List.countP_map, List.countP_eq_length_filter] at hcount
  rw [fields?_obj, if_pos honce, lookup_entriesOf hlength hnames]

theorem knownOnce_map {α β : Type} (names : List String) (f : α → β) (entries : List (String × α)) :
    knownOnce names (entries.map fun e => (e.1, f e.2)) = knownOnce names entries := by
  simp [knownOnce, List.filter_map, Function.comp_def]

theorem lookup_map {α β : Type} (f : α → β) (entries : List (String × α)) (name : String) :
    (entries.map fun e => (e.1, f e.2)).lookup name = (entries.lookup name).map f := by
  induction entries with
  | nil => rfl
  | cons e entries ih =>
    rw [List.map_cons, List.lookup_cons, List.lookup_cons, ih]
    cases name == e.1 <;> rfl

/-- The fields of a record that comes back are the fields as they come back. -/
theorem fields?_readBack (names : List String) (entries : List (String × Json)) (depth : Nat) :
    fields? names ((Json.obj entries).readBack (depth + 1)) =
      (fields? names (Json.obj entries)).map fun slots =>
        slots.map fun slot => slot.map (readBack depth) := by
  rw [readBack_obj, fields?_obj, fields?_obj, knownOnce_map]
  split
  · simp only [lookup_map, Option.map_some, List.map_map, Function.comp_def]
  · rfl

/-! ## §2 Parts of documents -/

/-- Only a number without a fraction is read as an integer. -/
theorem eq_int_of_integer? {j : Json} {n : Int} (h : (Document.integer? j : Option Int) = some n) :
    j = .int n := by
  cases j with
  | int k => exact congrArg Json.int (Option.some.inj h)
  | _ => cases h

/-- Only such a number without a sign is read as a natural number. -/
theorem eq_int_of_natural? {j : Json} {n : Nat} (h : (Document.natural? j : Option Nat) = some n) :
    j = .int n := by
  cases j with
  | int k =>
    cases k with
    | ofNat k => exact congrArg (fun k : Nat => Json.int k) (Option.some.inj h)
    | negSucc k => cases h
  | _ => cases h

/-- What is read from a document as it was written is what was written, if it can be read at
all. -/
def Faithful {α : Type} (read : Json → Option α) (write : α → Json) : Prop :=
  ∀ depth x y, read ((write x).readBack depth) = some y → y = x

namespace Faithful

variable {α : Type} {read : Json → Option α} {write : α → Json}

theorem text : Faithful (text? : Json → Option String) .str :=
  fun _ _ _ h => (Option.some.inj h).symm

theorem flag : Faithful (flag? : Json → Option Bool) .bool :=
  fun _ _ _ h => (Option.some.inj h).symm

theorem kind : Faithful (wordOf? FieldKind.ofWord?) (fun k : FieldKind => .str k.word) := by
  intro depth k k' h
  cases k <;> exact (Option.some.inj h).symm

theorem integerIn (low high : Int) : Faithful (integerIn? low high : Json → Option Int) .int := by
  intro depth n m h
  rw [readBack_int] at h
  obtain ⟨k, hk, hm⟩ := Option.bind_eq_some_iff.1 h
  obtain rfl : k = n := eq_of_rereadInt (eq_int_of_integer? hk)
  split at hm
  · exact (Option.some.inj hm).symm
  · cases hm

theorem naturalIn (high : Nat) :
    Faithful (naturalIn? high : Json → Option Nat) (fun n => .int n) := by
  intro depth n m h
  rw [readBack_int] at h
  obtain ⟨k, hk, hm⟩ := Option.bind_eq_some_iff.1 h
  obtain rfl : k = n := Int.ofNat.inj (eq_of_rereadInt (eq_int_of_natural? hk))
  split at hm
  · exact (Option.some.inj hm).symm
  · cases hm

/-- **Lists** are read item by item. -/
theorem list (h : Faithful read write) :
    Faithful (listOf? read) (fun xs => .arr (xs.map write)) := by
  intro depth xs ys hread
  cases depth with
  | zero => cases hread
  | succ depth =>
    -- Each item comes back one level further down.
    have hmapM : (xs.map fun x => (write x).readBack depth).mapM read = some ys := by
      rw [readBack_arr, List.map_map] at hread
      exact hread
    clear hread
    induction xs generalizing ys with
    | nil => exact (Option.some.inj hmapM).symm
    | cons x xs ih =>
      rw [List.map_cons, List.mapM_cons] at hmapM
      obtain ⟨y, hy, hrest⟩ := Option.bind_eq_some_iff.1 hmapM
      obtain ⟨ys', hys', hcons⟩ := Option.bind_eq_some_iff.1 hrest
      obtain rfl := Option.some.inj hcons
      rw [h _ x y hy, ih ys' hys']

/-- **Maps** are read entry by entry, in the order of the keys. -/
theorem map (h : Faithful read write) : Faithful (mapOf? read) (SortedMap.toJson write) := by
  intro depth m m' hread
  cases depth with
  | zero => cases hread
  | succ depth =>
    -- The entries of the map are those of its record, key by key.
    have hrecord : Document.record? ((m.toJson write).readBack (depth + 1)) =
        some (RecordForm.keyed (m.entries.map fun e => (e.1, (write e.2).readBack depth))) := by
      rw [SortedMap.toJson, readBack_obj, List.map_map]
      rfl
    simp only [mapOf?, hrecord, Option.bind_eq_bind, Option.bind_some, Option.bind_eq_some_iff]
      at hread
    obtain ⟨entries, hentries, hm⟩ := hread
    have heq : entries = m.entries := by
      clear hm hrecord
      generalize m.entries = old at hentries
      induction old generalizing entries with
      | nil => exact (Option.some.inj hentries).symm
      | cons e old ih =>
        rw [List.map_cons, List.mapM_cons] at hentries
        simp only [Option.bind_eq_bind, Option.bind_eq_some_iff] at hentries
        obtain ⟨e', ⟨x, hx, he⟩, rest, hrest, hcons⟩ := hentries
        obtain rfl := Option.some.inj he
        obtain rfl := Option.some.inj hcons
        rw [h _ _ _ hx, ih _ hrest]
    obtain rfl := Option.some.inj hm
    rw [heq, SortedMap.ofList_entries]

/-- A part that is left out when there is none comes back as none. -/
theorem optional (h : Faithful read write) {depth : Nat}
    (hpresent : ∀ x, (write x).readBack depth ≠ .null) {x y : Option α}
    (hread : optional read (x.map fun x => (write x).readBack depth) = some y) : y = x := by
  cases x with
  | none => exact (Option.some.inj hread).symm
  | some x =>
    -- What is written is not null, so that it counts as present.
    have hsome : present? ((write x).readBack depth) = some (some ((write x).readBack depth)) := by
      have hne := hpresent x
      cases hj : (write x).readBack depth <;> first | rfl | exact absurd hj hne
    simp only [Document.optional, Option.map_some, hsome, Option.bind_eq_bind, Option.bind_some,
      Option.bind_eq_some_iff] at hread
    obtain ⟨z, hz, hy⟩ := hread
    obtain rfl := Option.some.inj hy
    rw [h _ x z hz]

theorem texts : Faithful (listOf? text? : Json → Option (List String)) Field.textsToJson :=
  list text

theorem handles : Faithful (listOf? int32? : Json → Option (List Int)) Field.handlesToJson :=
  list (integerIn _ _)

end Faithful

/-! ## §3 Fields -/

namespace Field

theorem listToJson_eq (fs : List Field) : listToJson fs = fs.map toJson := by
  induction fs with
  | nil => rw [listToJson, List.map_nil]
  | cons f fs ih => rw [listToJson, ih, List.map_cons]

/-- The parts of a field, in the order of the keys. -/
def slots (f : Field) : List (Option Json) :=
  [some (.str f.name), some (.str f.declaredType), some (.str f.kind.word),
    f.enumValues.map textsToJson, f.variantIds.map handlesToJson, some (.int f.schemaId),
    f.children.map fieldsToJson, if f.hint = "" then none else some (.str f.hint),
    some (.bool f.hasLocalizationHandle), some (.bool f.mustLocalize)]

theorem toJson_eq (f : Field) : f.toJson = .obj (entriesOf keys f.slots) := by
  obtain ⟨n, t, k, e, v, s, c, hint, l, m⟩ := f
  by_cases hhint : hint = "" <;> cases e <;> cases v <;> cases c <;>
    simp [toJson, leadingEntries, trailingEntries, optionalEntry, fieldsToJson, entriesOf, keys,
      slots, hhint]

theorem fields?_toJson (f : Field) : fields? keys f.toJson = some f.slots := by
  rw [toJson_eq]
  exact fields?_entriesOf rfl (by decide)

/-- The parts of a field that comes back. -/
theorem fields?_readBack_toJson (f : Field) (depth : Nat) :
    fields? keys (f.toJson.readBack (depth + 1)) =
      some [some (.str f.name), some (.str f.declaredType), some (.str f.kind.word),
        f.enumValues.map fun x => (textsToJson x).readBack depth,
        f.variantIds.map fun x => (handlesToJson x).readBack depth,
        some ((Json.int f.schemaId).readBack depth),
        f.children.map fun x => (fieldsToJson x).readBack depth,
        if f.hint = "" then none else some (.str f.hint),
        some (.bool f.hasLocalizationHandle), some (.bool f.mustLocalize)] := by
  rw [toJson_eq, fields?_readBack, ← toJson_eq, fields?_toJson, slots]
  by_cases hhint : f.hint = "" <;>
    simp only [hhint, if_true, if_false, Option.map_some, Option.map_none, Option.map_map,
      List.map_cons, List.map_nil] <;> rfl

theorem faithful_readWithin (fuel : Nat) : Faithful (readWithin? fuel) toJson := by
  induction fuel with
  | zero => exact fun depth f g h => nomatch h
  | succ fuel ih =>
    intro depth f g h
    -- Children are read with one step less, by induction.
    have hchildren : Faithful (listOf? (readWithin? fuel)) fieldsToJson := by
      intro depth fs gs hread
      rw [fieldsToJson, listToJson_eq] at hread
      exact Faithful.list ih depth fs gs hread
    cases depth with
    -- On no level at all there is nothing to be read, whatever the field holds.
    | zero =>
      obtain ⟨n, t, k, e, v, s, c, hint, l, m⟩ := f
      cases c <;> cases h
    | succ depth =>
      rw [readWithin?, fields?_readBack_toJson] at h
      simp only [required, Option.bind_eq_bind, Option.bind_eq_some_iff] at h
      obtain ⟨name, hname, declaredType, htype, kind, hkind, enumValues, henum, variantIds,
        hvariants, schemaId, hschema, children, hc, hint, hhint, localized, hlocalized, must,
        hmust, hg⟩ := h
      obtain rfl := Option.some.inj hg
      -- An empty hint is not written, and comes back as the empty one.
      have hhint' : hint = f.hint := by
        by_cases hempty : f.hint = ""
        · rw [if_pos hempty] at hhint
          exact (Option.some.inj hhint).symm.trans hempty.symm
        · rw [if_neg hempty] at hhint
          exact Faithful.text depth _ _ hhint
      rw [Faithful.text depth _ _ hname, Faithful.text depth _ _ htype,
        Faithful.kind depth _ _ hkind,
        Faithful.texts.optional (fun _ => readBack_arr_ne_null _ _) henum,
        Faithful.handles.optional (fun _ => readBack_arr_ne_null _ _) hvariants,
        Faithful.integerIn _ _ _ _ _ hschema,
        hchildren.optional (fun _ => readBack_arr_ne_null _ _) hc, hhint',
        Faithful.flag depth _ _ hlocalized, Faithful.flag depth _ _ hmust]
      cases f
      rfl

/-- **Fields** are read faithfully, with children nested to any depth. -/
theorem faithful : Faithful read? toJson := fun depth f g => faithful_readWithin _ depth f g

theorem faithful_list : Faithful (listOf? read?) fieldsToJson := by
  intro depth fs gs hread
  rw [fieldsToJson, listToJson_eq] at hread
  exact Faithful.list faithful depth fs gs hread

end Field

/-! ## §4 Caches -/

theorem Schema.faithful : Faithful Schema.read? Schema.toJson := by
  intro depth s s' h
  cases depth with
  | zero => cases h
  | succ depth =>
    have hfields : fields? ["full_name", "fields"] (s.toJson.readBack (depth + 1)) =
        some [some (.str s.fullName), some ((Field.fieldsToJson s.fields).readBack depth)] := rfl
    rw [Schema.read?, hfields] at h
    simp only [required, Option.bind_eq_bind, Option.bind_eq_some_iff] at h
    obtain ⟨fullName, hname, fields, hfs, hs⟩ := h
    obtain rfl := Option.some.inj hs
    rw [Faithful.text depth _ _ hname, Field.faithful_list _ _ _ hfs]

theorem Variant.faithful : Faithful Variant.read? Variant.toJson := by
  intro depth v v' h
  cases depth with
  | zero => cases h
  | succ depth =>
    -- The parts of the record, as they come back one level further down.
    have hfields : fields? ["full_name", "schema_id", "is_special_kind", "fields"]
        (v.toJson.readBack (depth + 1)) =
        some [some (.str v.fullName), some ((Json.int v.schemaId).readBack depth),
          some (.bool v.isSpecialKind), some ((Field.fieldsToJson v.fields).readBack depth)] := rfl
    rw [Variant.read?, hfields] at h
    simp only [required, defaulted, Option.bind_eq_bind, Option.bind_eq_some_iff] at h
    obtain ⟨fullName, hname, schemaId, hschema, special, hspecial, fields, hfs, hv⟩ := h
    obtain rfl := Option.some.inj hv
    rw [Faithful.text depth _ _ hname, Faithful.integerIn _ _ _ _ _ hschema,
      Faithful.flag depth _ _ hspecial, Field.faithful_list _ _ _ hfs]

theorem Definition.faithful : Faithful Definition.read? Definition.toJson := by
  intro depth d d' h
  cases depth with
  | zero => cases h
  | succ depth =>
    -- As for variants: each part is read back by itself.
    have hfields : fields? ["tag_name", "name", "parent_name", "is_abstract",
        "ignore_validation_errors", "full_name", "fields"] (d.toJson.readBack (depth + 1)) =
        some [some (.str d.tagName), some (.str d.name), some (.str d.parentName),
          some (.bool d.isAbstract), some (.bool d.ignoreValidationErrors),
          some (.str d.fullName), some ((Field.fieldsToJson d.fields).readBack depth)] := rfl
    rw [Definition.read?, hfields] at h
    simp only [required, defaulted, Option.bind_eq_bind, Option.bind_eq_some_iff] at h
    obtain ⟨tagName, htag, name, hname, parentName, hparent, isAbstract, habstract, ignores,
      hignores, fullName, hfull, fields, hfs, hd⟩ := h
    obtain rfl := Option.some.inj hd
    rw [Faithful.text depth _ _ htag, Faithful.text depth _ _ hname,
      Faithful.text depth _ _ hparent, Faithful.flag depth _ _ habstract,
      Faithful.flag depth _ _ hignores, Faithful.text depth _ _ hfull,
      Field.faithful_list _ _ _ hfs]

/-- **Caches** are read faithfully. -/
theorem Cache.faithful : Faithful Cache.read? Cache.toJson := by
  intro depth c c' h
  cases depth with
  | zero => cases h
  | succ depth =>
    -- Arenas and tables are lists and maps of parts that come back.
    have hfields : fields? ["definitions", "enumerated_value_catalog", "schemas", "variants",
        "cast_table"] (c.toJson.readBack (depth + 1)) =
        some [some ((Json.arr (c.definitions.map Definition.toJson)).readBack depth),
          some ((c.catalog.toJson Field.textsToJson).readBack depth),
          some ((Json.arr (c.schemas.map Schema.toJson)).readBack depth),
          some ((Json.arr (c.variants.map Variant.toJson)).readBack depth),
          some ((c.castTable.toJson .str).readBack depth)] := rfl
    rw [Cache.read?, hfields] at h
    simp only [defaulted, Option.bind_eq_bind, Option.bind_eq_some_iff] at h
    obtain ⟨definitions, hdefinitions, catalog, hcatalog, schemas, hschemas, variants, hvariants,
      castTable, hcast, hc⟩ := h
    obtain rfl := Option.some.inj hc
    rw [Faithful.list Definition.faithful _ _ _ hdefinitions,
      Faithful.map Faithful.texts _ _ _ hcatalog, Faithful.list Schema.faithful _ _ _ hschemas,
      Faithful.list Variant.faithful _ _ _ hvariants, Faithful.map Faithful.text _ _ _ hcast]

end SchemaGraph
