import SchemaGraph.Extraction.Conventions
import SchemaGraph.Interning
import SchemaGraph.Module.Index

/-!
# Introspection

What a type contributes by itself: the members that belong to its instances and can be set.
A type that is not declared, or whose members could not be read, cannot be introspected; a banned
type contributes nothing.
-/

namespace SchemaGraph

/-! ## §1 Failures -/

/-- The members of a type cannot be read. -/
structure IntrospectionError where
  typeName : String
  reason : String
  deriving DecidableEq, Inhabited, Repr

/-- The failure in words. -/
def IntrospectionError.message (e : IntrospectionError) : String :=
  "cannot introspect type " ++ e.typeName ++ ": " ++ e.reason

/-! ## §2 Records -/

/-- The members of a type itself, without its base types, and the distinct types they declare. -/
structure TypeRecord where
  fullName : String
  shortName : String
  members : List Member
  referencedTypes : List TypeRef
  deriving DecidableEq, Inhabited, Repr

namespace TypeRecord

/-- The record of a declaration. -/
def ofType (t : TypeInfo) : TypeRecord :=
  let members := t.members.filter Member.isInstanceMember
  { fullName := t.fullName
    shortName := t.name
    members
    referencedTypes := distinct (members.map (·.type)) }

/-- The record of a banned declaration. -/
def banned (t : TypeInfo) : TypeRecord := ⟨t.fullName, t.name, [], []⟩

end TypeRecord

/-- The record of a named type of a module. -/
def Module.introspect (m : Module) (c : Conventions) (fullName : String) :
    Except IntrospectionError TypeRecord :=
  match m.lookup? fullName with
  | none => .error ⟨fullName, "type is not declared in module"⟩
  | some t =>
    match t.loadError with
    | some reason => .error ⟨fullName, reason⟩
    | none => .ok (if c.isBanned fullName then .banned t else .ofType t)

end SchemaGraph
