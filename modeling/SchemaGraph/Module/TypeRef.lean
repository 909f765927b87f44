import SchemaGraph.Document

/-!
# Type References

The declared type of a member: a named type, or a sequence of some type.
-/

namespace SchemaGraph

/-- A reference to a declared type. -/
inductive TypeRef where
  /-- A type by its full name. -/
  | named (fullName : String)
  /-- A sequence of items. -/
  | list (item : TypeRef)
  deriving DecidableEq, Inhabited, Repr

namespace TypeRef

/-! ## §1 Reading a reference -/

/-- The full name, unless the reference is a sequence. -/
def name? : TypeRef → Option String
  | .named fullName => some fullName
  | .list _ => none

/-- The item type of a sequence; a named type itself. -/
def unwrapList : TypeRef → TypeRef
  | .list item => item
  | ref => ref

/-- The reference as it is shown. -/
def display : TypeRef → String
  | .named fullName => fullName
  | .list item => "List<" ++ item.display ++ ">"

/-! ## §2 References as documents -/

/-- A reference as a document: a text, or an object with the item type. -/
def toJson : TypeRef → Json
  | .named fullName => .str fullName
  | .list item => .obj [("list", item.toJson)]

/-- The shape of a key names a field, by a text or by its position. -/
def isKey : Content → Bool
  | .text _ => true
  | .number _ => true
  | _ => false

/-- The shape of a key names the field with the item type, which is the only one. -/
def isItemKey : Content → Bool
  | .text key => key = "list"
  | .number n => n = 0
  | _ => false

mutual

/-- The reference a shape stands for. -/
def ofContent? : Content → Option TypeRef
  | .text fullName => some (.named fullName)
  | .record entries =>
    if entries.all (isKey ·.1) then
      match itemTypes entries with
      | [item] => item.map .list
      | _ => none
    else none
  | _ => none

/-- What the values of the item key stand for. -/
def itemTypes : List (Content × Content) → List (Option TypeRef)
  | [] => []
  | (key, x) :: rest => if isItemKey key then ofContent? x :: itemTypes rest else itemTypes rest

end

/-- Reads a reference.  Which form it has is told from its shape, so the whole value has to be
readable. -/
def read? {m : Type → Type} [Monad m] [MonadExceptOf Unit m] {ν : Type} [Document m ν] (v : ν) :
    m TypeRef := do
  Document.ofOption (ofContent? (← Document.content? v))

end TypeRef

end SchemaGraph
