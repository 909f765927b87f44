import SchemaGraph.Text.Segment

/-!
# Fields

A schema graph keeps its schemas and variants in two arenas and refers to their entries by
*handle*, the position in the arena.  A field describes one member of a type: its name, its
declared type, how it is classified, and the handles of what lies below it.
-/

namespace SchemaGraph

/-! ## §1 Handles -/

/-- A position in an arena; a negative handle stands for no entry. -/
abbrev Handle := Int

/-- The handle that is written when there is no entry. -/
def noHandle : Handle := -1

/-- The entry of an arena at a handle. -/
def entryAt? {α : Type} (arena : List α) (h : Handle) : Option α :=
  if h < 0 then none else arena[h.toNat]?

/-! ## §2 Kinds -/

/-- How the declared type of a field is classified. -/
inductive FieldKind where
  /-- A closed value: number, text, vector, color, range. -/
  | scalar
  /-- One of a fixed list of names. -/
  | enumerated
  /-- A nested object with a structure of its own. -/
  | nested
  /-- A sequence of items of one type. -/
  | list
  /-- A sequence whose items choose a variant by class name. -/
  | polymorphicList
  /-- A node attached by collaborators, never produced by extraction. -/
  | metadata
  /-- A type that is declared elsewhere and cannot be described. -/
  | external
  deriving DecidableEq, Inhabited, Repr

namespace FieldKind

/-- Both kinds of sequences. -/
def isList : FieldKind → Bool
  | .list | .polymorphicList => true
  | _ => false

/-- The kinds whose children can be navigated. -/
def hasStructure : FieldKind → Bool
  | .nested | .list | .polymorphicList => true
  | _ => false

/-- A sequence can be navigated. -/
theorem hasStructure_of_isList {k : FieldKind} (h : k.isList = true) : k.hasStructure = true := by
  cases k <;> simp_all [isList, hasStructure]

end FieldKind

/-! ## §3 Fields -/

/-- One member of a type.

`enumValues` is meant for enumerated fields and `variantIds` for polymorphic lists; `schemaId`
is the handle of the schema below the field, and `children` is a structure attached to the field
itself, which comes before that schema. -/
structure Field where
  name : String
  declaredType : String
  kind : FieldKind
  enumValues : Option (List String)
  variantIds : Option (List Handle)
  schemaId : Handle
  children : Option (List Field)
  hint : String
  hasLocalizationHandle : Bool
  mustLocalize : Bool
  deriving Inhabited, Repr

namespace Field

mutual

/-- Equality of fields is decidable. -/
def decEq : (a b : Field) → Decidable (a = b)
  | ⟨n₁, t₁, k₁, e₁, v₁, s₁, c₁, h₁, l₁, m₁⟩, ⟨n₂, t₂, k₂, e₂, v₂, s₂, c₂, h₂, l₂, m₂⟩ =>
    if h : n₁ = n₂ ∧ t₁ = t₂ ∧ k₁ = k₂ ∧ e₁ = e₂ ∧ v₁ = v₂ ∧ s₁ = s₂ ∧ h₁ = h₂ ∧ l₁ = l₂
        ∧ m₁ = m₂ then
      match c₁, c₂ with
      | none, none => isTrue (by simp [h])
      | none, some _ => isFalse (by simp)
      | some _, none => isFalse (by simp)
      | some cs₁, some cs₂ =>
        match decEqList cs₁ cs₂ with
        | isTrue hc => isTrue (by simp [h, hc])
        | isFalse hc => isFalse (by simp [hc])
    else isFalse (by rw [Field.mk.injEq]; intro e; simp_all)

/-- Equality of lists of fields is decidable. -/
def decEqList : (a b : List Field) → Decidable (a = b)
  | [], [] => isTrue rfl
  | [], _ :: _ => isFalse (by simp)
  | _ :: _, [] => isFalse (by simp)
  | a :: as, b :: bs =>
    match decEq a b with
    | isFalse h => isFalse (by simp [h])
    | isTrue h =>
      match decEqList as bs with
      | isTrue hs => isTrue (by rw [h, hs])
      | isFalse hs => isFalse (by simp [hs])

end

instance : DecidableEq Field := decEq

/-! ## §4 Building fields -/

/-- A field of a kind with nothing attached. -/
def ofKind (kind : FieldKind) (name declaredType : String) : Field where
  name
  declaredType
  kind
  enumValues := none
  variantIds := none
  schemaId := noHandle
  children := none
  hint := ""
  hasLocalizationHandle := false
  mustLocalize := false

/-- A field with a closed value. -/
def scalar (name declaredType : String) : Field := ofKind .scalar name declaredType

/-- A field whose value is one of the given names. -/
def enumerated (name declaredType : String) (values : List String) : Field :=
  { ofKind .enumerated name declaredType with enumValues := some values }

/-- A nested object with the schema of the given handle. -/
def nested (name declaredType : String) (schemaId : Handle) : Field :=
  { ofKind .nested name declaredType with schemaId }

/-- A sequence whose items have the schema of the given handle. -/
def list (name declaredType : String) (schemaId : Handle) : Field :=
  { ofKind .list name declaredType with schemaId }

/-- A sequence whose items choose among the given variants. -/
def polymorphicList (name declaredType : String) (schemaId : Handle)
    (variantIds : List Handle) : Field :=
  { ofKind .polymorphicList name declaredType with schemaId, variantIds := some variantIds }

/-- A field whose type is declared elsewhere. -/
def external (name declaredType : String) : Field := ofKind .external name declaredType

/-- The field with a structure of its own. -/
def withChildren (f : Field) (children : List Field) : Field :=
  { f with children := some children }

/-- The field with a hint for writing its value. -/
def withHint (f : Field) (hint : String) : Field := { f with hint }

/-- The field with its localization marks. -/
def withLocalization (f : Field) (hasLocalizationHandle mustLocalize : Bool) : Field :=
  { f with hasLocalizationHandle, mustLocalize }

/-! ## §5 Reading fields -/

/-- The position of the field's schema in the arena, if it has one. -/
def schemaIndex? (f : Field) : Option Nat :=
  if f.schemaId < 0 then none else some f.schemaId.toNat

/-- The item type of a field declared as `List<T>`. -/
def listItemType? (f : Field) : Option String :=
  (Text.dropLead? "List<" f.declaredType).bind (Text.dropTail? ">")

/-- The field as it is shown: its name and its declared type. -/
def display (f : Field) : String := f.name ++ "(" ++ f.declaredType ++ ")"

/-- The structure attached to the field itself, unless it is empty. -/
def inlineChildren? (f : Field) : Option (List Field) :=
  match f.children with
  | some (c :: cs) => some (c :: cs)
  | _ => none

end Field

end SchemaGraph
