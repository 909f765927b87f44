import SchemaGraph.Json.Value

/-!
# JSON Text

The two ways a value is written: compact, without any space, and pretty, with two spaces of
indentation for each level.  Both are written in front of a given rest, so that a text is built
in one pass and reading it back can be stated for any continuation.
-/

namespace SchemaGraph.Json

/-! ## §1 Numbers -/

/-- The decimal digit of a number below ten. -/
def digitChar (n : Nat) : Char := Char.ofNat (48 + n)

/-- The decimal digits of a natural number, without leading zeros. -/
def decimalDigits (n : Nat) : List Char :=
  if n < 10 then [digitChar n] else decimalDigits (n / 10) ++ [digitChar (n % 10)]
termination_by n
decreasing_by omega

/-- The text of an integer. -/
def intChars (n : Int) : List Char :=
  match n with
  | .ofNat k => decimalDigits k
  | .negSucc k => '-' :: decimalDigits (k + 1)

/-! ## §2 Strings -/

/-- The lower-case hexadecimal digit of a number below sixteen. -/
def hexChar (n : Nat) : Char := if n < 10 then Char.ofNat (48 + n) else Char.ofNat (87 + n)

/-- One character inside quotes: quote, backslash and control characters are escaped. -/
def escapeChar (c : Char) : List Char :=
  match c with
  | '"' => ['\\', '"']
  | '\\' => ['\\', '\\']
  | '\n' => ['\\', 'n']
  | '\r' => ['\\', 'r']
  | '\t' => ['\\', 't']
  | '\x08' => ['\\', 'b']
  | '\x0c' => ['\\', 'f']
  | c =>
    if c.toNat < 32 then ['\\', 'u', '0', '0', hexChar (c.toNat / 16), hexChar (c.toNat % 16)]
    else [c]

/-- The characters of a string after its opening quote, the closing one included. -/
def writeStringBody : List Char → List Char → List Char
  | [], rest => '"' :: rest
  | c :: cs, rest => escapeChar c ++ writeStringBody cs rest

/-- A quoted string in front of `rest`. -/
def writeString (s : String) (rest : List Char) : List Char :=
  '"' :: writeStringBody s.toList rest

/-- The text of a value that is neither an array nor an object. -/
def writeAtom : Json → List Char → List Char
  | .bool true, rest => "true".toList ++ rest
  | .bool false, rest => "false".toList ++ rest
  | .int n, rest => intChars n ++ rest
  | .number literal, rest => literal.toList ++ rest
  | .str s, rest => writeString s rest
  | _, rest => "null".toList ++ rest

/-! ## §3 Compact text -/

mutual

/-- The compact text of a value in front of `rest`. -/
def write : Json → List Char → List Char
  | .arr [], rest => '[' :: ']' :: rest
  | .arr (x :: xs), rest => '[' :: write x (writeItems xs rest)
  | .obj [], rest => '\x7b' :: '\x7d' :: rest
  | .obj ((k, x) :: xs), rest =>
    '\x7b' :: writeString k (':' :: write x (writeEntries xs rest))
  | atom, rest => writeAtom atom rest

/-- The further items of an array and its end. -/
def writeItems : List Json → List Char → List Char
  | [], rest => ']' :: rest
  | x :: xs, rest => ',' :: write x (writeItems xs rest)

/-- The further entries of an object and its end. -/
def writeEntries : List (String × Json) → List Char → List Char
  | [], rest => '\x7d' :: rest
  | (k, x) :: xs, rest => ',' :: writeString k (':' :: write x (writeEntries xs rest))

end

/-- The compact text of a value. -/
def compact (j : Json) : String := String.ofList (j.write [])

/-! ## §4 Pretty text -/

/-- The start of a line at a level of indentation, in front of `rest`. -/
def newLine (level : Nat) (rest : List Char) : List Char :=
  '\n' :: (List.replicate (2 * level) ' ' ++ rest)

mutual

/-- The pretty text of a value at a level of indentation, in front of `rest`. -/
def writePretty (level : Nat) : Json → List Char → List Char
  | .arr [], rest => '[' :: ']' :: rest
  | .arr (x :: xs), rest =>
    '[' :: newLine (level + 1) (writePretty (level + 1) x (writePrettyItems level xs rest))
  | .obj [], rest => '\x7b' :: '\x7d' :: rest
  | .obj ((k, x) :: xs), rest =>
    '\x7b' :: newLine (level + 1) (writeString k
      (':' :: ' ' :: writePretty (level + 1) x (writePrettyEntries level xs rest)))
  | atom, rest => writeAtom atom rest

/-- The further items of an array whose brackets stand at `level`, and its end. -/
def writePrettyItems (level : Nat) : List Json → List Char → List Char
  | [], rest => newLine level (']' :: rest)
  | x :: xs, rest =>
    ',' :: newLine (level + 1) (writePretty (level + 1) x (writePrettyItems level xs rest))

/-- The further entries of an object whose braces stand at `level`, and its end. -/
def writePrettyEntries (level : Nat) : List (String × Json) → List Char → List Char
  | [], rest => newLine level ('\x7d' :: rest)
  | (k, x) :: xs, rest =>
    ',' :: newLine (level + 1) (writeString k
      (':' :: ' ' :: writePretty (level + 1) x (writePrettyEntries level xs rest)))

end

/-- The pretty text of a value, without a final line end. -/
def pretty (j : Json) : String := String.ofList (j.writePretty 0 [])

end SchemaGraph.Json
