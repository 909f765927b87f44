import SchemaGraph.Bytes.Basic
import SchemaGraph.Json.Value

/-!
# Reading JSON Text

The strict grammar of JSON: no trailing commas, no bare words, no control characters inside
strings, nothing but blanks after the value.  Reading does not fail on text that has no value,
such as half a surrogate pair or a number no double can hold; it marks it as unreadable, and
whoever reads that part fails.
-/

namespace SchemaGraph.Json

/-! ## §1 Blanks and digits -/

/-- The four blank characters between tokens. -/
def isGap (c : Char) : Bool := c == ' ' || c == '\n' || c == '\t' || c == '\r'

/-- The text after its leading blanks. -/
def skipGap (cs : List Char) : List Char := cs.dropWhile isGap

/-- The value of a decimal digit. -/
def digitValue (c : Char) : Nat := c.toNat - 48

/-- The number written by decimal digits. -/
def digitsValue (cs : List Char) : Nat := cs.foldl (fun n c => 10 * n + digitValue c) 0

/-- The value of a hexadecimal digit. -/
def hexValue? (c : Char) : Option Nat :=
  if '0' ≤ c ∧ c ≤ '9' then some (c.toNat - 48)
  else if 'a' ≤ c ∧ c ≤ 'f' then some (c.toNat - 87)
  else if 'A' ≤ c ∧ c ≤ 'F' then some (c.toNat - 55)
  else none

/-! ## §2 Strings -/

/-- A part of a quoted string: a character, or a sixteen-bit unit given by its number. -/
inductive StringPart where
  | char (c : Char)
  | codeUnit (n : Nat)

/-- The character that a backslash and a letter stand for. -/
def escaped? : Char → Option Char
  | '"' => some '"'
  | '\\' => some '\\'
  | '/' => some '/'
  | 'b' => some '\x08'
  | 'f' => some '\x0c'
  | 'n' => some '\n'
  | 'r' => some '\r'
  | 't' => some '\t'
  | _ => none

/-- The sixteen-bit unit written by four hexadecimal digits. -/
def codeUnit? (a b c d : Char) : Option Nat := do
  return (((← hexValue? a) * 16 + (← hexValue? b)) * 16 + (← hexValue? c)) * 16 + (← hexValue? d)

/-- Reads the parts of a string up to its closing quote. -/
def stringParts : List Char → Option (List StringPart × List Char)
  | [] => none
  | '"' :: rest => some ([], rest)
  -- A code unit is one of a pair or a character by itself, which is settled when all are read.
  | '\\' :: 'u' :: a :: b :: c :: d :: rest =>
    match codeUnit? a b c d, stringParts rest with
    | some n, some (parts, rest) => some (.codeUnit n :: parts, rest)
    | _, _ => none
  | '\\' :: e :: rest =>
    match escaped? e, stringParts rest with
    | some c, some (parts, rest) => some (.char c :: parts, rest)
    | _, _ => none
  | c :: rest =>
    -- Control characters have to be escaped, and a lone backslash ends nothing.
    if c.toNat < 32 ∨ c = '\\' then none
    else
      match stringParts rest with
      | some (parts, rest) => some (.char c :: parts, rest)
      | none => none

/-- The characters of the parts; none if a surrogate stands without its partner. -/
def joinParts : List StringPart → Option (List Char)
  | [] => some []
  | .char c :: parts => (joinParts parts).map (c :: ·)
  | .codeUnit high :: .codeUnit low :: parts =>
    if 0xD800 ≤ high ∧ high < 0xDC00 then
      if 0xDC00 ≤ low ∧ low < 0xE000 then
        (joinParts parts).map
          (Char.ofNat (0x10000 + (high - 0xD800) * 0x400 + (low - 0xDC00)) :: ·)
      else none
    else if 0xDC00 ≤ high ∧ high < 0xE000 then none
    else (joinParts (.codeUnit low :: parts)).map (Char.ofNat high :: ·)
  | .codeUnit n :: parts =>
    if 0xD800 ≤ n ∧ n < 0xE000 then none else (joinParts parts).map (Char.ofNat n :: ·)

/-! ## §3 Numbers -/

/-- The least integer that rounds beyond the range of doubles. -/
def doubleBound : Nat := Nat.pow 2 1024 - Nat.pow 2 970

/-- The integer of 53 significant bits nearest to an integer; of two equally near ones the even
one. -/
def nearestDouble (n : Nat) : Nat :=
  let width := n.log2 - 52
  let unit := Nat.pow 2 width
  let quotient := n / unit
  let rest := 2 * (n % unit)
  (if unit < rest ∨ (rest = unit ∧ quotient % 2 = 1) then quotient + 1 else quotient) * unit

/-- Appends digits to a number as long as it stays below 2 ^ 64, and gives the digits left. -/
def appendDigits (n : Nat) : List Char → Nat × List Char
  | [] => (n, [])
  | d :: ds =>
    let longer := 10 * n + digitValue d
    if longer < 0x10000000000000000 then appendDigits longer ds else (n, d :: ds)

/-- The significand and the exponent of a number from its whole digits, fraction digits and
exponent.  Of too many digits the last ones do not count; those of the whole part still scale
it. -/
def scaled (whole fraction : List Char) (exponent : Int) : Nat × Int :=
  let (n, left) := appendDigits 0 whole
  let (significand, ignored) := appendDigits n fraction
  (significand, exponent + left.length - (fraction.length - ignored.length : Nat))

/-- The number `significand × 10 ^ exponent` stays within the range of doubles, when both
factors and then their product are rounded to doubles. -/
def staysFinite (significand : Nat) (exponent : Int) : Bool :=
  significand = 0 || exponent < 0
    || (exponent ≤ 308
      && nearestDouble significand * nearestDouble (Nat.pow 10 exponent.toNat) < doubleBound)

/-- The value of a number from its sign, whole digits, fraction digits and exponent. -/
def numberValue (negative : Bool) (whole : List Char) (fraction : Option (List Char))
    (exponent : Option (Bool × List Char)) (literal : String) : Json :=
  let size := digitsValue whole
  let shift : Int :=
    match exponent with
    | none => 0
    | some (true, ds) => -(digitsValue ds : Int)
    | some (false, ds) => digitsValue ds
  let signed : Int := if negative then -(size : Int) else size
  if fraction.isNone ∧ exponent.isNone ∧ ¬(negative ∧ size = 0)
      ∧ -0x8000000000000000 ≤ signed ∧ signed ≤ 0xFFFFFFFFFFFFFFFF then
    .int signed
  else
    let (significand, power) := scaled whole (fraction.getD []) shift
    if staysFinite significand power then .number literal else .unreadable

/-- Digits at the front of a text, at least one, and the rest. -/
def digits? (cs : List Char) : Option (List Char × List Char) :=
  match cs.takeWhile Char.isDigit with
  | [] => none
  | ds => some (ds, cs.dropWhile Char.isDigit)

/-- The whole part of a number: a lone zero, or digits that do not start with one. -/
def whole? : List Char → Option (List Char × List Char)
  | '0' :: rest => some (['0'], rest)
  | cs => digits? cs

/-- The fraction of a number, if a point follows. -/
def fraction? : List Char → Option (Option (List Char) × List Char)
  | '.' :: rest => (digits? rest).map fun (ds, rest) => (some ds, rest)
  | cs => some (none, cs)

/-- The exponent of a number, if its letter follows: whether it is negative, and its digits. -/
def exponent? : List Char → Option (Option (Bool × List Char) × List Char)
  | c :: rest =>
    if c = 'e' ∨ c = 'E' then
      match rest with
      | '-' :: rest => (digits? rest).map fun (ds, rest) => (some (true, ds), rest)
      | '+' :: rest => (digits? rest).map fun (ds, rest) => (some (false, ds), rest)
      | rest => (digits? rest).map fun (ds, rest) => (some (false, ds), rest)
    else some (none, c :: rest)
  | [] => some (none, [])

/-- Reads a number. -/
def number? (cs : List Char) : Option (Json × List Char) := do
  let (negative, unsigned) :=
    match cs with
    | '-' :: rest => (true, rest)
    | cs => (false, cs)
  let (whole, rest) ← whole? unsigned
  let (fraction, rest) ← fraction? rest
  let (exponent, rest) ← exponent? rest
  let literal := String.ofList (cs.take (cs.length - rest.length))
  return (numberValue negative whole fraction exponent literal, rest)

/-! ## §4 Values -/

/-- Reads a string after its opening quote: its text, or none if it has no value. -/
def string? (cs : List Char) : Option (Option String × List Char) :=
  match stringParts cs with
  | none => none
  | some (parts, rest) => some ((joinParts parts).map String.ofList, rest)

/-- The object of the entries read; unreadable if a key has no value. -/
def objectOf (entries : List (Option String × Json)) : Json :=
  match entries.mapM (fun e => e.1.map (·, e.2)) with
  | some entries => .obj entries
  | none => .unreadable

mutual

/-- Reads a value; `fuel` bounds the number of steps. -/
def value? : (fuel : Nat) → List Char → Option (Json × List Char)
  | 0, _ => none
  | fuel + 1, cs =>
    match skipGap cs with
    | 'n' :: 'u' :: 'l' :: 'l' :: rest => some (.null, rest)
    | 't' :: 'r' :: 'u' :: 'e' :: rest => some (.bool true, rest)
    | 'f' :: 'a' :: 'l' :: 's' :: 'e' :: rest => some (.bool false, rest)
    | '"' :: rest =>
      match string? rest with
      | none => none
      -- The text is well formed, but its code units are no characters.
      | some (none, rest) => some (.unreadable, rest)
      | some (some s, rest) => some (.str s, rest)
    | '[' :: rest =>
      match skipGap rest with
      | ']' :: rest => some (.arr [], rest)
      | rest =>
        match items? fuel rest with
        | none => none
        | some (items, rest) => some (.arr items, rest)
    | '\x7b' :: rest =>
      match skipGap rest with
      | '\x7d' :: rest => some (.obj [], rest)
      | rest =>
        match entries? fuel rest with
        | none => none
        | some (entries, rest) => some (objectOf entries, rest)
    | cs => number? cs

/-- Reads the items of an array, at least one, and its end. -/
def items? : (fuel : Nat) → List Char → Option (List Json × List Char)
  | 0, _ => none
  | fuel + 1, cs =>
    match value? fuel cs with
    | none => none
    | some (x, rest) =>
      match skipGap rest with
      | ']' :: rest => some ([x], rest)
      | ',' :: rest =>
        match items? fuel rest with
        | none => none
        | some (xs, rest) => some (x :: xs, rest)
      | _ => none

/-- Reads the entries of an object, at least one, and its end. -/
def entries? : (fuel : Nat) → List Char → Option (List (Option String × Json) × List Char)
  | 0, _ => none
  | fuel + 1, cs =>
    match skipGap cs with
    | '"' :: rest =>
      match string? rest with
      | none => none
      | some (key, rest) =>
        match skipGap rest with
        | ':' :: rest =>
          match value? fuel rest with
          | none => none
          | some (x, rest) =>
            match skipGap rest with
            -- The last entry closes the object; a comma wants one more.
            | '\x7d' :: rest => some ([(key, x)], rest)
            | ',' :: rest =>
              match entries? fuel rest with
              | none => none
              | some (xs, rest) => some ((key, x) :: xs, rest)
            | _ => none
        | _ => none
    | _ => none

end

/-! ## §5 Documents -/

/-- The value of a whole text, at any depth. -/
def parseChars? (cs : List Char) : Option Json :=
  match value? (2 * cs.length + 2) cs with
  | some (j, rest) => if (skipGap rest).isEmpty then some j else none
  | none => none

/-- The levels of nesting that a document may have. -/
def maxDepth : Nat := 127

/-- The value of a document; what is nested deeper than permitted is unreadable. -/
def parse? (text : String) : Option Json := (parseChars? text.toList).map (cutBelow maxDepth)

/-- What stands for a byte that is part of no character: half a surrogate pair behind another
character.  A string that holds it has no value, and anywhere else it is a fault. -/
def strayByte : List Char := "?\\uDC00".toList

/-- The value of a document in bytes, of which those in skipped strings need not be text. -/
def parseBytes? (bytes : Bytes) : Option Json :=
  match bytes.text? with
  | some text => parse? text
  | none => (parseChars? (bytes.charsWith strayByte)).map (cutBelow maxDepth)

end SchemaGraph.Json
