import SchemaGraph.Module.Encoding
import SchemaGraph.Proofs.Model.Decoding

/-!
# Module Manifests Read Back

Reading the document of a manifest gives the manifest.  A reference to a type is told from its
shape alone, so its document is followed to the innermost item type.

- `TypeRef.recovers`: references with sequences nested to any depth
- `ModuleManifest.recovers`: manifests
-/

namespace SchemaGraph

open Document Json

/-! ## §1 References -/

namespace TypeRef

theorem exact_toJson (r : TypeRef) : Exact r.toJson := by
  induction r with
  | named fullName => exact .str fullName
  | list item ih => exact .obj (by simpa using ih)

/-- The shape of the document of a reference stands for that reference. -/
theorem ofContent?_toJson (r : TypeRef) : ofContent? r.toJson.content = some r := by
  induction r with
  | named fullName => rw [toJson, content, ofContent?]
  | list item ih =>
    simp [toJson, content, entriesContent, ofContent?, itemTypes, isKey, isItemKey, ih]

/-- **References** are recovered, with sequences nested to any depth. -/
theorem recovers (r : TypeRef) : Recovers read? toJson r where
  exact_write := r.exact_toJson
  read_write := by
    -- The shape is looked at only if all of the document is readable.
    have hcontent : Document.content? r.toJson = some r.toJson.content :=
      if_pos r.exact_toJson.isReadable
    rw [read?, hcontent]
    exact congrArg ofOption r.ofContent?_toJson

end TypeRef

/-! ## §2 Lists that are left out when they are empty -/

section Lists

variable {α : Type} {read : Json → Option α} {write : α → Json} {xs : List α}

/-- The value of the entry of a list, unless the list is empty. -/
def listSlot (write : α → Json) (xs : List α) : Option Json :=
  if xs.isEmpty then none else some (.arr (xs.map write))

theorem Recovers.defaulted_listSlot (h : ∀ x ∈ xs, Recovers read write x) :
    defaulted [] (listOf? read) (listSlot write xs) = some xs := by
  cases xs with
  | nil => rfl
  | cons x xs => exact (Recovers.list h).read_write

theorem Recovers.exact_listSlot (h : ∀ x ∈ xs, Recovers read write x) :
    ∀ j ∈ listSlot write xs, Exact j := by
  cases xs with
  | nil => nofun
  | cons x xs =>
    intro j hj
    obtain rfl := Option.some.inj hj
    exact (Recovers.list h).exact_write

theorem listEntry_eq (key : String) (write : α → Json) (xs : List α) :
    listEntry key write xs = entriesOf [key] [listSlot write xs] := by
  cases xs <;> rfl

end Lists

/-! ## §3 Members and types -/

theorem Member.recovers (m : Member) : Recovers Member.read? Member.toJson m := by
  have htype := m.type.recovers
  have hkind : Recovers (wordOf? MemberKind.ofWord?) (fun k => .str k.word) m.kind :=
    .word (by cases m.kind <;> rfl)
  have hattributes : ∀ s ∈ m.attributes, Recovers text? .str s := fun s _ => .text s
  -- Attributes are left out if there are none, as are all lists further down.
  have hdocument : m.toJson = .obj (entriesOf ["name", "type", "member", "is_static", "writable",
      "compiler_generated", "attributes"]
      [some (.str m.name), some m.type.toJson, some (.str m.kind.word), some (.bool m.isStatic),
        some (.bool m.writable), some (.bool m.compilerGenerated),
        listSlot .str m.attributes]) := by
    rw [toJson, listEntry_eq]
    rfl
  refine ⟨?_, ?_⟩
  · rw [hdocument]
    refine exact_entriesOf _ ?_
    simp only [List.forall_mem_cons]
    exact ⟨by simp, by simpa using htype.exact_write, by simp, by simp, by simp, by simp,
      Recovers.exact_listSlot hattributes, nofun⟩
  · rw [Member.read?, hdocument, fields?_entriesOf rfl (by decide)]
    simp only [required_some, defaulted_some, htype.read_write, hkind.read_write,
      (Recovers.text _).read_write, (Recovers.flag _).read_write,
      Recovers.defaulted_listSlot hattributes, Option.bind_eq_bind, Option.bind_some]
    rfl

namespace TypeInfo

/-- The parts of a type, in the order of the keys. -/
def slots (t : TypeInfo) : List (Option Json) :=
  [some (.str t.fullName), some (.str t.name), t.spaceName.map .str, t.base.map .str,
    some (.str t.kind.word), some (.bool t.isAbstract), some (.bool t.specialName),
    some (.bool t.genericParameter), listSlot .str t.enumValues, listSlot .str t.attributes,
    t.loadError.map .str, some (.arr (t.members.map Member.toJson))]

theorem toJson_eq (t : TypeInfo) : t.toJson = .obj (entriesOf keys t.slots) := by
  simp [toJson, listEntry_eq, optionalEntry_eq, entriesOf, keys, slots]

theorem recovers (t : TypeInfo) : Recovers read? toJson t := by
  have hkind : Recovers (wordOf? TypeKind.ofWord?) (fun k => .str k.word) t.kind :=
    .word (by cases t.kind <;> rfl)
  have hoptional : ∀ x : Option String, ∀ s ∈ x, Recovers text? .str s := fun _ s _ => .text s
  have hlist : ∀ xs : List String, ∀ s ∈ xs, Recovers text? .str s := fun _ s _ => .text s
  have hmembers := Recovers.list fun m (_ : m ∈ t.members) => m.recovers
  refine ⟨?_, ?_⟩
  -- All slots are written as they are read, each by the lemma for its kind of value.
  · rw [toJson_eq]
    refine exact_entriesOf keys ?_
    simp only [slots, List.forall_mem_cons]
    exact ⟨by simp, by simp, Recovers.exact_map (hoptional _), Recovers.exact_map (hoptional _),
      by simp, by simp, by simp, by simp, Recovers.exact_listSlot (hlist _),
      Recovers.exact_listSlot (hlist _), Recovers.exact_map (hoptional _),
      by simpa using hmembers.exact_write, nofun⟩
  · have hfields : fields? keys t.toJson = some t.slots := by
      rw [toJson_eq]
      exact fields?_entriesOf rfl (by decide)
    have htext : ∀ x : Option String, optional text? (x.map Json.str) = some x :=
      fun x => Recovers.optional (hoptional x) nofun
    rw [read?, hfields, slots]
    simp only [required_some, defaulted_some, htext, hkind.read_write, hmembers.read_write,
      (Recovers.text _).read_write, (Recovers.flag _).read_write,
      Recovers.defaulted_listSlot (hlist _), Option.bind_eq_bind, Option.bind_some]
    rfl

end TypeInfo

/-! ## §4 Manifests -/

/-- **Manifests** are recovered. -/
theorem ModuleManifest.recovers (m : ModuleManifest) :
    Recovers ModuleManifest.read? ModuleManifest.toJson m := by
  have htypes := Recovers.list fun t (_ : t ∈ m.types) => t.recovers
  have himports : ∀ t ∈ m.imports, Recovers TypeInfo.read? TypeInfo.toJson t :=
    fun t _ => t.recovers
  have hdocument : m.toJson = .obj (entriesOf ["module", "types", "imports"]
      [some (.str m.name), some (.arr (m.types.map TypeInfo.toJson)),
        listSlot TypeInfo.toJson m.imports]) := by
    rw [toJson, listEntry_eq]
    rfl
  refine ⟨?_, ?_⟩
  · rw [hdocument]
    refine exact_entriesOf _ ?_
    simp only [List.forall_mem_cons]
    exact ⟨by simp, by simpa using htypes.exact_write, Recovers.exact_listSlot himports, nofun⟩
  · rw [ModuleManifest.read?, hdocument, fields?_entriesOf rfl (by decide)]
    simp only [defaulted_some, htypes.read_write, (Recovers.text _).read_write,
      Recovers.defaulted_listSlot himports, Option.bind_eq_bind, Option.bind_some]
    rfl

end SchemaGraph
