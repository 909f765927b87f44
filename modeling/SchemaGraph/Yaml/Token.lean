import SchemaGraph.Yaml.Scalar
import SchemaGraph.Yaml.Tag

/-!
# Tokens of YAML

A text is cut into tokens, and the structure that indentation expresses becomes tokens of its own:
a collection opens at the column of its first dash or key and closes where a line starts left of
that column.

A scalar turns out to be a key only when its colon is met.  Until then the place where it began is
remembered, one for each level of brackets; the colon puts the missing key token back there.  Such
a key has to end on its line and within a certain length.
-/

namespace SchemaGraph.Yaml

/-! ## §1 Tokens -/

/-- A token. -/
inductive Token where
  /-- A directive; one for tags gives a handle and what it stands for. -/
  | directive (declared : Option (String × Bytes))
  | documentStart
  | documentEnd
  | sequenceStart
  | mappingStart
  | collectionEnd
  | bracketOpen
  | bracketClose
  | braceOpen
  | braceClose
  | comma
  | dash
  | key
  | value
  | anchor (name : String)
  | alias (name : String)
  | tag (handle : String) (suffix : Bytes)
  | scalar (text : String) (style : ScalarStyle)
  deriving DecidableEq, Inhabited, Repr

/-- The place where a key may have begun. -/
structure KeyStart where
  /-- The number of tokens before it. -/
  position : Nat
  start : Cursor
  /-- Nothing but a key may stand there. -/
  required : Bool

/-- A text that is partly cut into tokens. -/
structure Scan where
  cursor : Cursor
  /-- What bounds every loop: more than the characters of the text. -/
  fuel : Nat
  tokens : Array Token := #[]
  /-- The columns of the open block collections, the innermost first. -/
  columns : List Nat := []
  /-- The open brackets, each with the key start of the level around it. -/
  levels : List (Option KeyStart) := []
  /-- The key start of the current level. -/
  keyStart : Option KeyStart := none
  /-- A key may begin here. -/
  keyAllowed : Bool := true

namespace Scan

/-! ## §2 Collections -/

/-- Inside brackets. -/
def inFlow (s : Scan) : Bool := !s.levels.isEmpty

/-- The scan with one more token. -/
def emit (s : Scan) (t : Token) : Scan := { s with tokens := s.tokens.push t }

/-- The scan moved on by a number of characters. -/
def advance (s : Scan) (n : Nat) : Scan := { s with cursor := s.cursor.skip n }

/-- Opens a block collection at a column, unless one is open there; its token is put before the
token at `position`. -/
def openAt (s : Scan) (column position : Nat) (t : Token) : Scan :=
  if !s.inFlow && s.columns.head?.all (· < column) then
    { s with
      columns := column :: s.columns
      tokens := s.tokens.insertIdxIfInBounds position t }
  else s

/-- Closes the block collections that start right of a column. -/
def closeBeyond (s : Scan) (column : Nat) : Scan :=
  if s.inFlow then s
  else
    let closed := s.columns.takeWhile (column < ·)
    { s with
      columns := s.columns.drop closed.length
      tokens := s.tokens ++ Array.replicate closed.length Token.collectionEnd }

/-- Closes all block collections. -/
def closeAll (s : Scan) : Scan :=
  if s.inFlow then s
  else
    { s with
      columns := []
      tokens := s.tokens ++ Array.replicate s.columns.length Token.collectionEnd }

/-! ## §3 Keys -/

/-- The longest distance between the start of a key and its colon. -/
def maxKeyLength : Nat := 1024

/-- Gives up a key start; a required one cannot be given up. -/
def dropKey (s : Scan) : Option Scan :=
  if s.keyStart.any (·.required) then none else some { s with keyStart := none }

/-- A key start that is on another line, or too far away. -/
def isStale (s : Scan) (k : KeyStart) : Bool :=
  k.start.line < s.cursor.line || k.start.index + maxKeyLength < s.cursor.index

/-- Gives up the key start if it is stale. -/
def dropStaleKey (s : Scan) : Option Scan :=
  if s.keyStart.any s.isStale then s.dropKey else some s

/-- Remembers the place as a key start, if a key may begin here. -/
def markKey (s : Scan) : Option Scan :=
  if s.keyAllowed then do
    let s ← s.dropKey
    let required := !s.inFlow && s.columns.head? == some s.cursor.column
    return { s with keyStart := some ⟨s.tokens.size, s.cursor, required⟩ }
  else some s

/-! ## §4 Blanks and comments -/

/-- The scan at the next token: blanks, comments and line breaks are skipped.  A tab is skipped
only where no key may begin. -/
def skipBlanks : (fuel : Nat) → Scan → Scan
  | 0, s => s
  | fuel + 1, s =>
    let c := if s.cursor.column = 0 ∧ s.cursor.nextIs isByteOrderMark then s.cursor.next
      else s.cursor
    let c := c.skipWhile fun a => a == ' ' || (a == '\t' && (s.inFlow || !s.keyAllowed))
    let c := if c.nextIs (· == '#') then c.skipLine else c
    if c.nextIs isBreak then
      skipBlanks fuel { s with cursor := c.next, keyAllowed := s.keyAllowed || !s.inFlow }
    else { s with cursor := c }

/-! ## §5 Single tokens -/

/-- A directive line and its end. -/
def directive (s : Scan) : Option Scan := do
  let s ← s.closeAll.dropKey
  let text := s.cursor.rest.drop 1
  let (declared, rest) ← readDirective? text
  let c := (s.cursor.skip (1 + text.length - rest.length)).skipWhile isBlank
  let c := if c.nextIs (· == '#') then c.skipLine else c
  if !c.rest.isEmpty && !c.nextIs isBreak then none
  return { s.emit (.directive declared) with cursor := c.next, keyAllowed := false }

/-- A line that separates documents. -/
def documentMarker (s : Scan) (t : Token) : Option Scan := do
  let s ← s.closeAll.dropKey
  return { (s.advance 3).emit t with keyAllowed := false }

/-- An opening bracket. -/
def openFlow (s : Scan) (t : Token) : Option Scan := do
  let s ← s.markKey
  return { (s.advance 1).emit t with
    levels := s.keyStart :: s.levels, keyStart := none, keyAllowed := true }

/-- A closing bracket. -/
def closeFlow (s : Scan) (t : Token) : Option Scan := do
  let s ← s.dropKey
  let s := { s with
    keyStart := s.levels.head?.getD none, levels := s.levels.tail, keyAllowed := false }
  return (s.advance 1).emit t

/-- A comma inside brackets. -/
def comma (s : Scan) : Option Scan := do
  let s ← s.dropKey
  return { (s.advance 1).emit .comma with keyAllowed := true }

/-- A dash before an item. -/
def dash (s : Scan) : Option Scan := do
  if !s.inFlow && !s.keyAllowed then none
  let s ← (s.openAt s.cursor.column s.tokens.size .sequenceStart).dropKey
  return { (s.advance 1).emit .dash with keyAllowed := true }

/-- A question mark before a key. -/
def explicitKey (s : Scan) : Option Scan := do
  if !s.inFlow && !s.keyAllowed then none
  let s ← (s.openAt s.cursor.column s.tokens.size .mappingStart).dropKey
  return { (s.advance 1).emit .key with keyAllowed := !s.inFlow }

/-- A colon before a value. -/
def colon (s : Scan) : Option Scan :=
  match s.keyStart with
  | some k =>
    -- The mapping starts where its first key does, so its token goes before that of the key.
    let s := { s with tokens := s.tokens.insertIdxIfInBounds k.position .key, keyStart := none }
    let s := s.openAt k.start.column k.position .mappingStart
    some { (s.advance 1).emit .value with keyAllowed := false }
  | none => do
    if !s.inFlow && !s.keyAllowed then none
    let s := s.openAt s.cursor.column s.tokens.size .mappingStart
    return { (s.advance 1).emit .value with keyAllowed := !s.inFlow }

/-- An anchor or an alias. -/
def name (s : Scan) (token : String → Token) : Option Scan := do
  let s ← s.markKey
  let chars := (s.cursor.rest.drop 1).takeWhile isNameChar
  let s := s.advance (chars.length + 1)
  let ended := s.cursor.atWordEnd
    || s.cursor.nextIs (fun c => ['?', ':', ',', ']', '\x7d', '%', '@', '\x60'].contains c)
  if chars.isEmpty || !ended then none
  return { s.emit (token (String.ofList chars)) with keyAllowed := false }

/-- A tag. -/
def tag (s : Scan) : Option Scan := do
  let s ← s.markKey
  let (handle, suffix, width) ← readTag? s.cursor.rest
  let s := s.advance width
  if !s.cursor.atWordEnd && !(s.inFlow && s.cursor.nextIs (· == ',')) then none
  return { s.emit (.tag handle suffix) with keyAllowed := false }

/-- A quoted scalar. -/
def quoted (s : Scan) (quote : Char) : Option Scan := do
  let s ← s.markKey
  let (text, c) ← quotedScalar quote s.fuel s.cursor
  return { s.emit (.scalar (String.ofList text) .quoted) with cursor := c, keyAllowed := false }

/-- A block scalar. -/
def block (s : Scan) (folded : Bool) : Option Scan := do
  let s ← s.dropKey
  let (text, c) ← blockScalar folded s.columns.head? s.fuel s.cursor
  let style := if folded then ScalarStyle.folded else .literal
  return { s.emit (.scalar (String.ofList text) style) with cursor := c, keyAllowed := true }

/-- A plain scalar. -/
def plain (s : Scan) : Option Scan := do
  let s ← s.markKey
  let scalar ← plainScalar s.inFlow (s.columns.head?.elim 0 (· + 1)) s.fuel s.cursor
  return { s.emit (.scalar (String.ofList scalar.text) .plain) with
    cursor := scalar.after, keyAllowed := scalar.endsLine }

/-- The characters that no plain scalar starts with. -/
def indicators : List Char :=
  ['-', '?', ':', ',', '[', ']', '\x7b', '\x7d', '#', '&', '*', '!', '|', '>', '\'', '"', '%',
    '@', '\x60']

/-- A plain scalar may start with these characters. -/
def startsPlain (inFlow : Bool) (c : Char) (rest : List Char) : Bool :=
  (!isBlank c && !isBreak c && !indicators.contains c)
    || (c == '-' && !rest.head?.any isBlank)
    || (!inFlow && (c == '?' || c == ':') && !endsWord rest)

/-- The scan after its next token, which starts with `c`. -/
def token (s : Scan) (c : Char) (rest : List Char) : Option Scan :=
  -- Directives and markers are told by their place at the start of a line, all others by their
  -- character.
  if s.cursor.column = 0 ∧ c = '%' then s.directive
  else if s.cursor.isMarker '-' then s.documentMarker .documentStart
  else if s.cursor.isMarker '.' then s.documentMarker .documentEnd
  else if c = '[' then s.openFlow .bracketOpen
  else if c = '\x7b' then s.openFlow .braceOpen
  else if c = ']' then s.closeFlow .bracketClose
  else if c = '\x7d' then s.closeFlow .braceClose
  else if c = ',' then s.comma
  -- A dash in front of more text begins a plain scalar; so do a question mark and a colon outside
  -- of flow style.
  else if c = '-' ∧ endsWord rest then s.dash
  else if c = '?' ∧ (s.inFlow ∨ endsWord rest) then s.explicitKey
  else if c = ':' ∧ (s.inFlow ∨ endsWord rest) then s.colon
  else if c = '*' then s.name .alias
  else if c = '&' then s.name .anchor
  else if c = '!' then s.tag
  else if c = '|' ∧ !s.inFlow then s.block false
  else if c = '>' ∧ !s.inFlow then s.block true
  else if c = '\'' then s.quoted '\''
  else if c = '"' then s.quoted '"'
  else if startsPlain s.inFlow c rest then s.plain
  else none

/-! ## §6 All tokens -/

/-- The tokens from a place to the end of the text. -/
def finish : (fuel : Nat) → Scan → Option (List Token)
  | 0, _ => none
  | fuel + 1, s => do
    -- Only what comes next on the same line can still be the colon of a key.
    let s ← (skipBlanks s.fuel s).dropStaleKey
    match s.cursor.rest with
    | [] =>
      let s ← s.closeAll.dropKey
      return s.tokens.toList
    | c :: rest => finish fuel (← (s.closeBeyond s.cursor.column).token c rest)

end Scan

/-- The tokens of a text. -/
def tokens? (text : String) : Option (List Token) :=
  let cs := text.toList
  if cs.all isPermitted then
    let cs := unifyBreaks cs
    let fuel := cs.length + 1
    Scan.finish fuel { cursor := { rest := cs }, fuel }
  else none

end SchemaGraph.Yaml
