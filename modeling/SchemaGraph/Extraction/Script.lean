import SchemaGraph.Extraction.Registry

/-!
# Request Scripts

A script is a request together with everything its resolver does: the further requests it makes,
in order, and how it ends.  Scripts stand for arbitrary resolvers, so what holds of every run of
every script holds of the registry however it is used.
-/

namespace SchemaGraph

/-- How a resolver ends: with some more fields of its own, or with a failure. -/
structure ResolverEnd where
  fieldNames : List String := []
  /-- The reason of the failure, if the resolver fails. -/
  failure : Option String := none
  deriving DecidableEq, Inhabited, Repr

/-- A request and what its resolver does. -/
inductive Script where
  | schema (typeName : String) (inner : List Script) (ending : ResolverEnd)
  | variant (typeName shortName : String) (isSpecialKind : Bool) (inner : List Script)
      (ending : ResolverEnd)
  deriving Inhabited, Repr

namespace Script

/-! ## §1 Parts -/

/-- The requested type. -/
def typeName : Script → String
  | .schema typeName _ _ => typeName
  | .variant typeName _ _ _ _ => typeName

/-- The field that a resolver makes of the handle that a request answered. -/
def fieldFor (script : Script) (h : Handle) : Field :=
  match script with
  | .schema typeName _ _ => .nested "inner" typeName h
  | .variant typeName _ _ _ _ => .polymorphicList "inner" typeName noHandle [h]

/-- The end of a resolver of a type: the fields so far with its own ones, or a failure. -/
def finish (typeName : String) (fields : List Field) (ending : ResolverEnd) :
    Build (List String) (List Field) :=
  match ending.failure with
  | some reason => throw ⟨typeName, reason⟩
  | none => return fields ++ ending.fieldNames.map (Field.scalar · "System.Int32")

/-- Notes that the resolver of a type runs. -/
def note (typeName : String) : Build (List String) Unit :=
  modify fun (r, calls) => (r, calls ++ [typeName])

/-! ## §2 Runs -/

mutual

/-- Runs a script; the notes are the types whose resolvers ran. -/
def run (needsSchema : String → Bool) : Script → Build (List String) Handle
  | .schema typeName inner ending =>
    Registry.requestSchema needsSchema typeName do
      note typeName
      finish typeName (← runInner needsSchema inner) ending
  | .variant typeName shortName isSpecialKind inner ending =>
    Registry.requestVariant typeName shortName isSpecialKind do
      note typeName
      finish typeName (← runInner needsSchema inner) ending

/-- Runs the scripts of a resolver in order, with a field for each; the first failure ends it. -/
def runInner (needsSchema : String → Bool) : List Script → Build (List String) (List Field)
  | [] => return []
  | script :: scripts => do
    let h ← run needsSchema script
    return script.fieldFor h :: (← runInner needsSchema scripts)

end

end Script

end SchemaGraph
