import SchemaGraph.Json.Text
import SchemaGraph.Yaml.Character
import SchemaGraph.Yaml.Plain

/-!
# YAML Text

Values are written in block style: a mapping has a line for each key, a sequence a dash for each
item, and a sequence below a key is not indented.  Empty collections are written as brackets.

A text is written in the plainest style it admits:

* several lines are written as a literal block;
* a text that would read as another value, or hold an indicator, is put in single quotes;
* a text with a character that has to be escaped is put in double quotes;
* any other text is written as it is.
-/

namespace SchemaGraph.Yaml

/-! ## §1 What a text holds -/

/-- Two characters in a row satisfy the two properties. -/
def hasPair (p q : Char → Bool) : List Char → Bool
  | a :: b :: rest => (p a && q b) || hasPair p q (b :: rest)
  | _ => false

/-- The characters that start something else when they come first. -/
def leadIndicators : List Char :=
  ['#', ',', '[', ']', '\x7b', '\x7d', '&', '*', '!', '|', '>', '\'', '"', '%', '@', '\x60']

/-- The text begins like something else than a plain scalar. -/
def startsLikeIndicator (cs : List Char) : Bool :=
  match cs with
  | [] => false
  | c :: rest =>
    leadIndicators.contains c || ((c == '?' || c == ':' || c == '-') && endsWord rest)
      || ['-', '-', '-'].isPrefixOf cs || ['.', '.', '.'].isPrefixOf cs

/-- A colon before a blank or the end, or a number sign after a blank. -/
def holdsIndicator : List Char → Bool
  | [] => false
  | c :: rest =>
    (c == ':' && endsWord rest) || ((isBlank c || isBreak c) && rest.head? == some '#')
      || holdsIndicator rest

/-- The first or the last character has a property. -/
def atEnds (p : Char → Bool) (cs : List Char) : Bool := cs.head?.any p || cs.getLast?.any p

/-- The text cannot be read back without escapes. -/
def needsEscapes (cs : List Char) : Bool :=
  cs.any (fun c => !isPrintable c) || hasPair (· == ' ') isBreak cs

/-! ## §2 Styles -/

/-- The ways to write a text. -/
inductive Style where
  | plain
  | single
  | double
  | literal
  deriving DecidableEq, Repr

/-- The style a text is written in. -/
def styleOf (text : String) : Style :=
  let cs := text.toList
  if cs.isEmpty then .single
  else if needsEscapes cs then .double
  else if cs.contains '\n' then
    if cs.getLast? = some ' ' then .double else .literal
  else if hasPair isBreak (· == ' ') cs then .double
  else if cs.any isBreak ∨ atEnds (· == ' ') cs ∨ startsLikeIndicator cs ∨ holdsIndicator cs then
    .single
  else if plainValue text = .text ∧ ¬isPaddedDigits cs then .plain
  else .single

/-- An upper-case hexadecimal digit. -/
def upperHex (n : Nat) : Char := Char.ofNat (if n < 10 then 48 + n else 55 + n)

/-- The hexadecimal digits of a number, `width` of them. -/
def hexDigits : (width : Nat) → (n : Nat) → List Char
  | 0, _ => []
  | width + 1, n => upperHex (n / 16 ^ width % 16) :: hexDigits width n

/-- The escape of a character in double quotes. -/
def escape (c : Char) : List Char :=
  match c with
  | '\x00' => ['\\', '0']
  | '\x07' => ['\\', 'a']
  | '\x08' => ['\\', 'b']
  | '\t' => ['\\', 't']
  | '\n' => ['\\', 'n']
  | '\x0b' => ['\\', 'v']
  | '\x0c' => ['\\', 'f']
  | '\r' => ['\\', 'r']
  | '\x1b' => ['\\', 'e']
  | '"' => ['\\', '"']
  | '\\' => ['\\', '\\']
  | '\x85' => ['\\', 'N']
  | '\u2028' => ['\\', 'L']
  | '\u2029' => ['\\', 'P']
  -- The number says how many digits are needed.
  | c =>
    if c.toNat ≤ 0xFF then '\\' :: 'x' :: hexDigits 2 c.toNat
    else if c.toNat ≤ 0xFFFF then '\\' :: 'u' :: hexDigits 4 c.toNat
    else '\\' :: 'U' :: hexDigits 8 c.toNat

/-- A character in double quotes. -/
def doubleQuoted (c : Char) : List Char :=
  if !isPrintable c || isBreak c || c == '"' || c == '\\' then escape c else [c]

/-- The spaces of an indentation. -/
def spaces (n : Nat) : List Char := List.replicate n ' '

/-- Lines with an indentation before each that is not empty. -/
def indentLines (indent : Nat) : (fresh : Bool) → List Char → List Char
  | _, [] => []
  | fresh, c :: cs =>
    if isBreak c then c :: indentLines indent true cs
    else (if fresh then spaces indent else []) ++ c :: indentLines indent false cs

/-- The text in single quotes; what follows a line break is indented. -/
def singleQuoted (indent : Nat) (cs : List Char) : List Char :=
  '\'' :: (indentLines indent false (cs.flatMap fun c => if c = '\'' then ['\'', '\''] else [c])
    ++ (if cs.getLast?.any isBreak then spaces indent else []) ++ ['\''])

/-- The marks behind the bar of a literal block: the indentation, if the text starts with a
blank, and what happens to the line breaks at its end. -/
def literalMarks (cs : List Char) : List Char :=
  (if cs.head?.any (fun c => c == ' ' || isBreak c) then ['2'] else [])
    ++ match cs.reverse with
      | a :: b :: _ => if !isBreak a then ['-'] else if isBreak b then ['+'] else []
      | [a] => if isBreak a then ['+'] else ['-']
      | [] => ['-']

/-- A text with its line end, as it is written after a key or a dash; further lines are
indented. -/
def writeText (indent : Nat) (text : String) : List Char :=
  let cs := text.toList
  match styleOf text with
  | .plain => cs ++ ['\n']
  | .single => singleQuoted indent cs ++ ['\n']
  | .double => '"' :: (cs.flatMap doubleQuoted ++ ['"', '\n'])
  | .literal =>
    '|' :: (literalMarks cs ++ '\n' :: indentLines indent true cs
      ++ (if cs.getLast?.any isBreak then [] else ['\n']))

/-! ## §3 Values -/

/-- An inline value with its line end. -/
def writeInline (indent : Nat) : Json → List Char
  | .arr _ => "[]\n".toList
  | .obj _ => "\x7b\x7d\n".toList
  | .str text => writeText indent text
  | other => other.writeAtom ['\n']

mutual

/-- A value at an indentation, in front of `rest`.  Its first line starts where the text stands,
its other lines are indented. -/
def writeBlock (indent : Nat) : Json → List Char → List Char
  | .arr (x :: xs), rest =>
    '-' :: ' ' :: writeBlock (indent + 2) x (writeItems indent xs rest)
  | .obj ((k, x) :: xs), rest =>
    k.toList ++ ':' :: writeUnderKey indent x (writeEntries indent xs rest)
  | inline, rest => writeInline indent inline ++ rest

/-- The further items of a sequence. -/
def writeItems (indent : Nat) : List Json → List Char → List Char
  | [], rest => rest
  | x :: xs, rest =>
    spaces indent ++ '-' :: ' ' :: writeBlock (indent + 2) x (writeItems indent xs rest)

/-- The further entries of a mapping. -/
def writeEntries (indent : Nat) : List (String × Json) → List Char → List Char
  | [], rest => rest
  | (k, x) :: xs, rest =>
    spaces indent ++ k.toList ++ ':' :: writeUnderKey indent x (writeEntries indent xs rest)

/-- A value after the colon of its key. -/
def writeUnderKey (indent : Nat) : Json → List Char → List Char
  | .arr (x :: xs), rest =>
    '\n' :: spaces indent ++ '-' :: ' ' :: writeBlock (indent + 2) x (writeItems indent xs rest)
  | .obj ((k, x) :: xs), rest =>
    '\n' :: spaces (indent + 2) ++ k.toList ++ ':' ::
      writeUnderKey (indent + 2) x (writeEntries (indent + 2) xs rest)
  | inline, rest => ' ' :: writeInline (indent + 2) inline ++ rest

end

/-- The document of a value.  Keys are written plainly: they are names of fields. -/
def document (j : Json) : String :=
  String.ofList (match j with
    | .str text => writeText 2 text
    | j => writeBlock 0 j [])

end SchemaGraph.Yaml
