import SchemaGraph.Module.TypeRef
import SchemaGraph.Text.Segment

/-!
# Declarations

What a compiled module declares: its types with their members, and the types it imports from
the modules it refers to.
-/

namespace SchemaGraph

/-! ## §1 Members -/

/-- What sort of member it is. -/
inductive MemberKind where
  | field
  | property
  deriving DecidableEq, Inhabited, Repr

/-- A field or property of a type.  Whether it is writable matters for properties only. -/
structure Member where
  name : String
  type : TypeRef
  kind : MemberKind := .field
  isStatic : Bool := false
  writable : Bool := true
  compilerGenerated : Bool := false
  attributes : List String := []
  deriving DecidableEq, Inhabited, Repr

namespace Member

/-- The member carries the attribute. -/
def hasAttribute (m : Member) (mark : String) : Bool := m.attributes.contains mark

/-- A member that belongs to instances and can be set: not static, not generated by a compiler,
and a field or a writable property.  Names with angle brackets belong to generated storage. -/
def isInstanceMember (m : Member) : Bool :=
  !m.isStatic && !m.compilerGenerated && !m.name.toList.contains '<'
    && !m.name.toList.contains '>' && (m.kind = .field || m.writable)

end Member

/-! ## §2 Types -/

/-- What sort of type it is. -/
inductive TypeKind where
  | classType
  | valueType
  | interfaceType
  | enumeration
  deriving DecidableEq, Inhabited, Repr

/-- A declared type. -/
structure TypeInfo where
  fullName : String
  /-- The short name. -/
  name : String := ""
  spaceName : Option String := none
  /-- The full name of the base type. -/
  base : Option String := none
  kind : TypeKind := .classType
  isAbstract : Bool := false
  specialName : Bool := false
  genericParameter : Bool := false
  enumValues : List String := []
  attributes : List String := []
  /-- Why the members of the type could not be read. -/
  loadError : Option String := none
  members : List Member := []
  deriving DecidableEq, Inhabited, Repr

namespace TypeInfo

/-- The short name in a full name: the last dotted segment, and of a nested type its last part. -/
def shortName (fullName : String) : String := Text.afterLast '+' (Text.afterLast '.' fullName)

/-- The type with its short name and namespace taken from the full name where they are missing. -/
def normalized (t : TypeInfo) : TypeInfo :=
  { t with
    name := if t.name = "" then shortName t.fullName else t.name
    spaceName := t.spaceName <|> Text.beforeLast? '.' t.fullName }

/-- A type of a kind with nothing declared. -/
def ofKind (kind : TypeKind) (fullName : String) : TypeInfo :=
  normalized { fullName, kind }

/-- A class. -/
def ofClass (fullName : String) : TypeInfo := ofKind .classType fullName

/-- A value type. -/
def ofStructure (fullName : String) : TypeInfo := ofKind .valueType fullName

/-- An interface; it is abstract. -/
def ofInterface (fullName : String) : TypeInfo :=
  { ofKind .interfaceType fullName with isAbstract := true }

/-- An enumeration with its names. -/
def ofEnumeration (fullName : String) (values : List String) : TypeInfo :=
  { ofKind .enumeration fullName with enumValues := values }

/-- The type with a base type. -/
def withBase (t : TypeInfo) (base : String) : TypeInfo := { t with base := some base }

/-- The type with one more attribute. -/
def withAttribute (t : TypeInfo) (mark : String) : TypeInfo :=
  { t with attributes := t.attributes ++ [mark] }

/-- The type marked as unreadable. -/
def withLoadError (t : TypeInfo) (reason : String) : TypeInfo :=
  { t with loadError := some reason }

/-- The type as an abstract one. -/
def asAbstract (t : TypeInfo) : TypeInfo := { t with isAbstract := true }

/-- The type with one more member. -/
def withMember (t : TypeInfo) (m : Member) : TypeInfo := { t with members := t.members ++ [m] }

/-- The type is an enumeration. -/
def isEnum (t : TypeInfo) : Bool := t.kind = .enumeration

/-- The type is an interface. -/
def isInterface (t : TypeInfo) : Bool := t.kind = .interfaceType

/-- Neither abstract nor an interface. -/
def isConcrete (t : TypeInfo) : Bool := !t.isAbstract && !t.isInterface

/-- The type carries the attribute. -/
def hasAttribute (t : TypeInfo) (mark : String) : Bool := t.attributes.contains mark

end TypeInfo

/-! ## §3 Manifests -/

/-- The declarations of one module as they are dumped. -/
structure ModuleManifest where
  name : String := ""
  types : List TypeInfo := []
  imports : List TypeInfo := []
  deriving DecidableEq, Inhabited, Repr

end SchemaGraph
