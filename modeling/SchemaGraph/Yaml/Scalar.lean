import SchemaGraph.Json.Reader
import SchemaGraph.Yaml.Cursor

/-!
# Scalars in a Text

The four ways a scalar stands in a text: plain, in single or double quotes, and as a block.  Lines
of a plain or quoted scalar are folded into one; a literal block keeps its lines, a folded block
joins those that are not indented further.
-/

namespace SchemaGraph.Yaml

/-- How a scalar is written. -/
inductive ScalarStyle where
  | plain
  | quoted
  | literal
  | folded
  deriving DecidableEq, Inhabited, Repr

/-! ## §1 Plain scalars -/

/-- Brackets and the comma, which end words inside brackets. -/
def isFlowIndicator (c : Char) : Bool :=
  c == ',' || c == '[' || c == ']' || c == '\x7b' || c == '\x7d'

/-- The characters of a plain scalar up to the next blank or indicator.  A colon right before a
bracket is a fault inside brackets. -/
def plainWord (inFlow : Bool) : List Char → Option (List Char)
  | [] => some []
  | c :: rest =>
    if isBlank c || isBreak c then some []
    else if inFlow && c == ':' && rest.head?.any (fun a => isFlowIndicator a || a == '?') then none
    else if (c == ':' && endsWord rest) || (inFlow && isFlowIndicator c) then some []
    else (plainWord inFlow rest).map (c :: ·)

/-- A scalar that was read: its text, the place after it and after the gap that follows, and
whether that gap ends the line. -/
structure PlainScalar where
  text : List Char
  after : Cursor
  endsLine : Bool

/-- The rest of a plain scalar behind `text`, whose further lines are indented by at least
`indent`. -/
def plainRest (inFlow : Bool) (indent : Nat) :
    (fuel : Nat) → (text : List Char) → Cursor → Option PlainScalar
  | 0, _, _ => none
  | fuel + 1, text, c =>
    let (gap, d) := Gap.read c
    if Gap.hasTabBefore indent c then none
    else if (gap.blanks.isEmpty && gap.breaks.isEmpty)
        || (!inFlow && !gap.breaks.isEmpty && d.column < indent)
        || d.isDocumentMarker || d.nextIs (· == '#') then
      some ⟨text, d, !gap.breaks.isEmpty⟩
    else
      match plainWord inFlow d.rest with
      | none => none
      | some [] => some ⟨text, d, !gap.breaks.isEmpty⟩
      | some word => plainRest inFlow indent fuel (text ++ gap.fold ++ word) (d.skip word.length)

/-- Reads a plain scalar; `fuel` bounds the number of its words. -/
def plainScalar (inFlow : Bool) (indent fuel : Nat) (c : Cursor) : Option PlainScalar :=
  match plainWord inFlow c.rest with
  | none => none
  | some word => plainRest inFlow indent fuel word (c.skip word.length)

/-! ## §2 Quoted scalars -/

/-- The character of hexadecimal digits. -/
def codePoint? (digits : List Char) : Option Char := do
  let n ← (digits.mapM Json.hexValue?).map fun ds => ds.foldl (fun n d => 16 * n + d) 0
  if n < 0xD800 ∨ (0xDFFF < n ∧ n ≤ 0x10FFFF) then some (Char.ofNat n) else none

/-- The number of hexadecimal digits after an escape letter. -/
def escapeWidth? : Char → Option Nat
  | 'x' => some 2
  | 'u' => some 4
  | 'U' => some 8
  | _ => none

/-- The character of an escape letter. -/
def escapeLetter? : Char → Option Char
  | '0' => some '\x00'
  | 'a' => some '\x07'
  | 'b' => some '\x08'
  | 't' => some '\t'
  | '\t' => some '\t'
  | 'n' => some '\n'
  | 'v' => some '\x0b'
  | 'f' => some '\x0c'
  | 'r' => some '\r'
  | 'e' => some '\x1b'
  | ' ' => some ' '
  | '"' => some '"'
  | '/' => some '/'
  | '\\' => some '\\'
  | 'N' => some '\x85'
  | '_' => some '\xa0'
  | 'L' => some '\u2028'
  | 'P' => some '\u2029'
  | _ => none

/-- The character of the escape after a backslash, and how many characters it has. -/
def escape? : List Char → Option (Char × Nat)
  | [] => none
  | letter :: rest =>
    match escapeWidth? letter with
    | some width =>
      if rest.length < width then none
      else (codePoint? (rest.take width)).map (·, width + 1)
    | none => (escapeLetter? letter).map (·, 1)

/-- Text that was read, with some more in front of it. -/
def behind (chars : List Char) (read : Option (List Char × Cursor)) :
    Option (List Char × Cursor) :=
  read.map fun (text, c) => (chars ++ text, c)

/-- The characters of a quoted scalar up to the closing quote, and the place after it. -/
def quotedRest (quote : Char) : (fuel : Nat) → Cursor → Option (List Char × Cursor)
  | 0, _ => none
  | fuel + 1, c =>
    if c.isDocumentMarker then none
    else
      match c.rest with
      | [] => none
      | a :: rest =>
        if a = quote then
          -- Two single quotes stand for one.
          if quote = '\'' ∧ rest.head? = some '\'' then
            behind ['\''] (quotedRest quote fuel (c.skip 2))
          else some ([], c.next)
        -- Blanks and line breaks between words are folded.
        else if isBlank a || isBreak a then
          let (gap, d) := Gap.read c
          behind gap.fold (quotedRest quote fuel d)
        else if a = '\\' ∧ quote = '"' then
          if rest.head?.any isBreak then
            -- An escaped line break stands for nothing; the empty lines after it are kept.
            let (gap, d) := Gap.read (c.skip 2)
            behind gap.breaks (quotedRest quote fuel d)
          else
            match escape? rest with
            | some (e, width) => behind [e] (quotedRest quote fuel (c.skip (width + 1)))
            | none => none
        else behind [a] (quotedRest quote fuel c.next)

/-- Reads a quoted scalar; `fuel` bounds the number of its characters and gaps. -/
def quotedScalar (quote : Char) (fuel : Nat) (c : Cursor) : Option (List Char × Cursor) :=
  quotedRest quote fuel c.next

/-! ## §3 Block scalars -/

/-- What happens to the line breaks at the end of a block. -/
inductive Chomping where
  /-- They are dropped. -/
  | strip
  /-- One is kept. -/
  | clip
  /-- All are kept. -/
  | keep
  deriving DecidableEq

/-- The mark for the line breaks at the end. -/
def chomping? : Char → Option Chomping
  | '-' => some .strip
  | '+' => some .keep
  | _ => none

/-- The indentation given as a digit. -/
def indentMark? (c : Char) : Option Nat := if c.isDigit then some (c.toNat - 48) else none

/-- The marks in the head of a block, in either order, and how many there are. -/
def blockMarks : List Char → Chomping × Option Nat × Nat
  | a :: b :: _ =>
    -- The two marks may come in either order.
    match chomping? a, indentMark? a with
    | some chomping, _ =>
      match indentMark? b with
      | some n => (chomping, some n, 2)
      | none => (chomping, none, 1)
    | none, some n =>
      match chomping? b with
      | some chomping => (chomping, some n, 2)
      | none => (.clip, some n, 1)
    | none, none => (.clip, none, 0)
  | [a] =>
    match chomping? a, indentMark? a with
    | some chomping, _ => (chomping, none, 1)
    | none, some n => (.clip, some n, 1)
    | none, none => (.clip, none, 0)
  | [] => (.clip, none, 0)

/-- The empty lines at a place: their line breaks, the greatest column met, and the place after
them, at most `indent` columns into the next line.  Without an indentation all spaces are
skipped. -/
def emptyLines (indent : Option Nat) :
    (fuel : Nat) → (breaks : List Char) → (widest : Nat) → Cursor →
      Option (List Char × Nat × Cursor)
  | 0, _, _, _ => none
  | fuel + 1, breaks, widest, c =>
    let blanks := (c.rest.takeWhile (· == ' ')).length
    let d := c.skip (match indent with
      | some n => min blanks (n - c.column)
      | none => blanks)
    let widest := max widest d.column
    -- A tab may stand behind the indentation only.
    if d.nextIs (· == '\t') && indent.all (d.column < ·) then none
    else
      match d.rest with
      | a :: _ =>
        if isBreak a then emptyLines indent fuel (breaks ++ [a]) widest d.next
        else some (breaks, widest, d)
      | [] => some (breaks, widest, d)

/-- The text of a block read so far, with the line breaks that may still be folded. -/
structure BlockState where
  text : List Char := []
  /-- The line break that ended the last line. -/
  lineEnd : List Char := []
  /-- The line breaks of the empty lines after it. -/
  emptyEnds : List Char := []
  /-- The last line was indented further. -/
  indented : Bool := false

/-- The text with the line breaks before a next line.  In a folded block a line break between
two lines that are not indented further becomes a space, unless empty lines follow it. -/
def BlockState.joined (s : BlockState) (folded nextIndented : Bool) : List Char :=
  if folded && s.lineEnd.head? == some '\n' && !s.indented && !nextIndented then
    s.text ++ (if s.emptyEnds.isEmpty then [' '] else []) ++ s.emptyEnds
  else s.text ++ s.lineEnd ++ s.emptyEnds

/-- The lines of a block with an indentation. -/
def blockLines (folded : Bool) (indent : Nat) :
    (fuel : Nat) → BlockState → Cursor → Option (BlockState × Cursor)
  | 0, _, _ => none
  | fuel + 1, s, c =>
    if c.column ≠ indent ∨ c.rest.isEmpty then some (s, c)
    else
      let indented := c.nextIs isBlank
      let line := c.rest.takeWhile (fun a => !isBreak a)
      let d := c.skip line.length
      let lineEnd := d.rest.take 1
      match emptyLines (some indent) (fuel + 1) [] 0 d.next with
      | none => none
      | some (emptyEnds, _, e) =>
        blockLines folded indent fuel
          ⟨s.joined folded indented ++ line, lineEnd, emptyEnds, indented⟩ e

/-- Reads a block scalar inside collections whose innermost one starts at column `outer`; `fuel`
bounds the number of its lines. -/
def blockScalar (folded : Bool) (outer : Option Nat) (fuel : Nat) (c : Cursor) :
    Option (List Char × Cursor) := do
  let (chomping, mark, width) := blockMarks (c.rest.drop 1)
  if mark = some 0 then none
  let d := (c.skip (width + 1)).skipWhile isBlank
  let d := if d.nextIs (· == '#') then d.skipLine else d
  -- Behind the marks there may be a comment and nothing else on the line.
  if !d.rest.isEmpty && !d.nextIs isBreak then none
  let d := d.next
  let given := mark.map fun n => outer.getD 0 + n
  let (breaks, widest, e) ← emptyLines given fuel [] 0 d
  -- Without a mark the first lines tell the indentation, which is right of the collection.
  let indent := given.getD (max (max widest (outer.elim 0 (· + 1))) 1)
  let (s, e) ← blockLines folded indent fuel { emptyEnds := breaks } e
  return (match chomping with
    | .strip => s.text
    | .clip => s.text ++ s.lineEnd
    | .keep => s.text ++ s.lineEnd ++ s.emptyEnds, e)

end SchemaGraph.Yaml
