import SchemaGraph.Bytes.Basic
import SchemaGraph.Json.Reader
import SchemaGraph.Yaml.Cursor

/-!
# Tags

A tag in front of a node names its type.  It is written in full between angle brackets, or as a
handle and a suffix.  What a handle stands for is declared by a directive at the head of the
document; two handles stand for something without one.

A tag is a sequence of bytes, of which any can be written as a percent sign and two digits.  It
need not be a text, and then it names nothing.
-/

namespace SchemaGraph.Yaml

/-! ## §1 Tags -/

/-- What a tag says about its node. -/
inductive Tag where
  /-- The node has a type of the document's own; the name is missing if it is not a text. -/
  | own (name : Option String)
  | absent
  | flag
  | integer
  | number
  /-- The node has a type that makes no difference. -/
  | other
  deriving DecidableEq, Inhabited, Repr

namespace Tag

/-- What the tags of the standard begin with. -/
def standardLead : String := "tag:yaml.org,2002:"

/-- What the bytes of a tag say.  A tag of one's own starts with an exclamation mark, which is
not part of its name unless it stands alone. -/
def ofBytes (bytes : Bytes) : Tag :=
  match bytes with
  | [0x21] => .own (some "!")
  | 0x21 :: name => .own (Bytes.text? name)
  | _ =>
    if bytes = Bytes.ofText (standardLead ++ "null") then .absent
    else if bytes = Bytes.ofText (standardLead ++ "bool") then .flag
    else if bytes = Bytes.ofText (standardLead ++ "int") then .integer
    else if bytes = Bytes.ofText (standardLead ++ "float") then .number
    else .other

end Tag

/-- What the handles without a declaration stand for. -/
def standardHandles : List (String × Bytes) :=
  [("!", Bytes.ofText "!"), ("!!", Bytes.ofText Tag.standardLead)]

/-! ## §2 Characters -/

/-- A character of the name of an anchor or a handle. -/
def isNameChar (c : Char) : Bool := c.isAlphanum || c == '_' || c == '-'

/-- A character of a tag.  The comma and square brackets are such only in a full tag. -/
def isTagChar (full : Bool) (c : Char) : Bool :=
  isNameChar c || ";/?:@&=+$.%!~*'()".toList.contains c || (full && [',', '[', ']'].contains c)

/-- The bytes that the characters of a tag stand for.  The bytes of one character have to be
written in the same way; `trail` of them are still to come. -/
def tagBytes? : (trail : Nat) → List Char → Option Bytes
  | 0, [] => some []
  | _ + 1, [] => none
  | trail, '%' :: high :: low :: rest => do
    let byte := 16 * (← Json.hexValue? high) + (← Json.hexValue? low)
    let trail ←
      match trail with
      | 0 => Bytes.trailLength? byte
      | trail + 1 => if 0x80 ≤ byte ∧ byte < 0xC0 then some trail else none
    return UInt8.ofNat byte :: (← tagBytes? trail rest)
  | 0, c :: rest => if c = '%' then none else (tagBytes? 0 rest).map (UInt8.ofNat c.toNat :: ·)
  | _ + 1, _ :: _ => none

/-- The bytes of a tag, or of a part of one, up to the first zero. -/
def tagPart? (cs : List Char) : Option Bytes := (tagBytes? 0 cs).map (·.takeWhile (· ≠ 0))

/-! ## §3 Tags in a text -/

/-- The handle and the suffix of a tag, and the number of its characters.  A tag without a handle
has the empty one. -/
def readTag? (cs : List Char) : Option (String × Bytes × Nat) :=
  match cs with
  | '!' :: '<' :: rest => do
    let body := rest.takeWhile (isTagChar true)
    -- A tag in angle brackets is taken as it stands.
    if body.isEmpty ∨ (rest.drop body.length).head? ≠ some '>' then none
    return ("", ← tagPart? body, body.length + 3)
  | '!' :: rest => do
    let name := rest.takeWhile isNameChar
    -- A name between two marks is a handle, which a directive may have declared.
    if (rest.drop name.length).head? = some '!' then
      let body := (rest.drop (name.length + 1)).takeWhile (isTagChar false)
      if body.isEmpty then none
      return (String.ofList ('!' :: name ++ ['!']), ← tagPart? body, name.length + body.length + 2)
    else
      let body := rest.takeWhile (isTagChar false)
      let suffix ← tagPart? body
      -- A lone mark is a tag of its own.
      return if suffix.isEmpty then ("", Bytes.ofText "!", body.length + 1)
        else ("!", suffix, body.length + 1)
  | _ => none

/-! ## §4 Directives -/

/-- A number of at most nine digits, and the text after it. -/
def shortNumber? (cs : List Char) : Option (Nat × List Char) :=
  let ds := cs.takeWhile Char.isDigit
  if ds.isEmpty ∨ 9 < ds.length then none else some (Json.digitsValue ds, cs.drop ds.length)

/-- The text after a version of the format that can be read: 1.1 or 1.2. -/
def afterVersion? (cs : List Char) : Option (List Char) := do
  match ← shortNumber? cs with
  | (1, '.' :: rest) =>
    let (minor, rest) ← shortNumber? rest
    if minor = 1 ∨ minor = 2 then return rest else none
  | _ => none

/-- A handle that can be declared, and the text after it. -/
def readHandle? (cs : List Char) : Option (String × List Char) :=
  match cs with
  | '!' :: rest =>
    let name := rest.takeWhile isNameChar
    match name, rest.drop name.length with
    | name, '!' :: rest => some (String.ofList ('!' :: name ++ ['!']), rest)
    | [], rest => some ("!", rest)
    | _, _ => none
  | _ => none

/-- A handle, what it is declared to stand for, and the text after that. -/
def readDeclaration? (cs : List Char) : Option ((String × Bytes) × List Char) := do
  let (handle, rest) ← readHandle? cs
  if !rest.head?.any isBlank then none
  let rest := rest.dropWhile isBlank
  let body := rest.takeWhile (isTagChar true)
  let rest := rest.drop body.length
  if body.isEmpty || !endsWord rest then none
  return ((handle, ← tagPart? body), rest)

/-- Reads a directive after its percent sign: what it declares, if it is one for tags, and the
text after it. -/
def readDirective? (cs : List Char) : Option (Option (String × Bytes) × List Char) :=
  let name := cs.takeWhile isNameChar
  let rest := cs.drop name.length
  if !endsWord rest then none
  else
    match String.ofList name with
    | "YAML" => (afterVersion? (rest.dropWhile isBlank)).map (none, ·)
    | "TAG" => (readDeclaration? (rest.dropWhile isBlank)).map fun (d, rest) => (some d, rest)
    | _ => none

end SchemaGraph.Yaml
