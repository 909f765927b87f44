/-!
# Segments of a Text

Cutting a text at a separator character: slash-separated paths, dotted type names and
nested type names all use it.  Names and path segments are trimmed before they are looked at.
-/

namespace SchemaGraph.Text

/-! ## §1 Pieces between separators -/

/-- The pieces of a text between the separators; there is one more than there are
separators. -/
def pieces (sep : Char) : List Char → List (List Char)
  | [] => [[]]
  | c :: cs =>
    if c = sep then [] :: pieces sep cs
    else
      match pieces sep cs with
      | [] => [[c]]
      | p :: ps => (c :: p) :: ps

/-- The pieces of a text between the separators, as texts. -/
def splitAt (sep : Char) (s : String) : List String :=
  (pieces sep s.toList).map String.ofList

/-! ## §2 The last piece -/

/-- What follows the last separator; the whole text if there is none. -/
def afterLast (sep : Char) (s : String) : String :=
  String.ofList (s.toList.reverse.takeWhile (· != sep)).reverse

/-- What precedes the last separator, if there is one. -/
def beforeLast? (sep : Char) (s : String) : Option String :=
  match s.toList.reverse.dropWhile (· != sep) with
  | [] => none
  | _ :: rest => some (String.ofList rest.reverse)

/-! ## §3 Both ends -/

/-- The text begins with `lead`. -/
def beginsWith (lead s : String) : Bool := lead.toList.isPrefixOf s.toList

/-- The text ends with `tail`. -/
def endsWith (tail s : String) : Bool := tail.toList.isSuffixOf s.toList

/-- The text after `lead`, if it begins with it. -/
def dropLead? (lead s : String) : Option String :=
  if beginsWith lead s then some (String.ofList (s.toList.drop lead.toList.length)) else none

/-- The text before `tail`, if it ends with it. -/
def dropTail? (tail s : String) : Option String :=
  if endsWith tail s then
    some (String.ofList (s.toList.take (s.toList.length - tail.toList.length)))
  else none

/-- The texts one after the other with `sep` between each two. -/
def joinWith (sep : String) (parts : List String) : String := String.intercalate sep parts

/-! ## §4 Blank characters -/

/-- The characters with the Unicode property `White_Space`. -/
def isBlank (c : Char) : Bool :=
  let n := c.toNat
  (9 ≤ n && n ≤ 13) || n == 0x20 || n == 0x85 || n == 0xA0 || n == 0x1680 ||
    (0x2000 ≤ n && n ≤ 0x200A) || n == 0x2028 || n == 0x2029 || n == 0x202F ||
    n == 0x205F || n == 0x3000

/-- The characters without the blank ones at both ends. -/
def trimChars (cs : List Char) : List Char :=
  ((cs.dropWhile isBlank).reverse.dropWhile isBlank).reverse

/-- The text without the blank characters at both ends. -/
def trim (s : String) : String := String.ofList (trimChars s.toList)

/-- A text of blank characters only, the empty one included. -/
def isBlankText (s : String) : Bool := s.toList.all isBlank

end SchemaGraph.Text
