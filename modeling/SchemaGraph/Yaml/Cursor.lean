import SchemaGraph.Yaml.Character

/-!
# Cursors

A place in a text, with what follows it.  Columns decide what belongs to which collection, and
lines decide where a key may stand.
-/

namespace SchemaGraph.Yaml

/-- A place in a text. -/
structure Cursor where
  rest : List Char
  line : Nat := 0
  column : Nat := 0
  /-- The number of bytes before. -/
  index : Nat := 0
  deriving Inhabited

namespace Cursor

/-! ## §1 Moving -/

/-- The place after the next character. -/
def next (c : Cursor) : Cursor :=
  match c.rest with
  | [] => c
  | a :: rest =>
    if isBreak a then ⟨rest, c.line + 1, 0, c.index + a.utf8Size⟩
    else ⟨rest, c.line, c.column + 1, c.index + a.utf8Size⟩

/-- The place after a number of characters. -/
def skip (n : Nat) (c : Cursor) : Cursor := Nat.repeat next n c

/-- The place after all next characters with a property. -/
def skipWhile (p : Char → Bool) (c : Cursor) : Cursor := c.skip (c.rest.takeWhile p).length

/-- The place at the end of the line. -/
def skipLine (c : Cursor) : Cursor := c.skipWhile (fun a => !isBreak a)

/-! ## §2 Looking ahead -/

/-- Three equal marks at the start of a line, with nothing attached. -/
def isMarker (mark : Char) (c : Cursor) : Bool :=
  c.column == 0 && c.rest.take 3 == [mark, mark, mark] && endsWord (c.rest.drop 3)

/-- A line that separates documents. -/
def isDocumentMarker (c : Cursor) : Bool := c.isMarker '-' || c.isMarker '.'

/-- The next character has a property. -/
def nextIs (p : Char → Bool) (c : Cursor) : Bool := c.rest.head?.any p

/-- The next characters, if any, end a word. -/
def atWordEnd (c : Cursor) : Bool := endsWord c.rest

end Cursor

/-! ## §3 Gaps -/

/-- The blanks and line breaks between two parts of a scalar: the blanks before the first line
break, and the line breaks. -/
structure Gap where
  blanks : List Char
  breaks : List Char
  deriving Inhabited

namespace Gap

/-- What a gap stands for: within a line its blanks, else one space for a single line break and
the further line breaks for several. -/
def fold (g : Gap) : List Char :=
  match g.breaks with
  | [] => g.blanks
  | ['\n'] => [' ']
  | '\n' :: more => more
  | breaks => breaks

/-- The gap at a place, and the place after it. -/
def read (c : Cursor) : Gap × Cursor :=
  let chars := c.rest.takeWhile (fun a => isBlank a || isBreak a)
  (⟨chars.takeWhile isBlank, chars.filter isBreak⟩, c.skip chars.length)

/-- A tab stands left of a column in some line after the first one of the gap. -/
def hasTabBefore (column : Nat) (c : Cursor) : Bool :=
  let chars := c.rest.takeWhile (fun a => isBlank a || isBreak a)
  let rec check : (inLine : Option Nat) → List Char → Bool
    | _, [] => false
    | at?, a :: rest =>
      if isBreak a then check (some 0) rest
      else
        match at? with
        | none => check none rest
        | some n => (a == '\t' && n < column) || check (some (n + 1)) rest
  check none chars

end Gap

end SchemaGraph.Yaml
