import SchemaGraph.Json.Reader

/-!
# Plain Scalars

A YAML scalar without quotes is text, unless it reads as an absent value, a truth value, an
integer or a finite number.  The same rules decide which texts have to be quoted when they are
written.
-/

namespace SchemaGraph.Yaml

/-! ## §1 Words -/

/-- The words for an absent value. -/
def nullWords : List String := ["~", "null", "Null", "NULL"]

/-- The words for true. -/
def trueWords : List String := ["true", "True", "TRUE"]

/-- The words for false. -/
def falseWords : List String := ["false", "False", "FALSE"]

/-- The words for numbers that are not finite. -/
def limitWords : List String :=
  [".inf", ".Inf", ".INF", "+.inf", "+.Inf", "+.INF", "-.inf", "-.Inf", "-.INF",
    ".nan", ".NaN", ".NAN"]

/-! ## §2 Integers -/

/-- The value of a digit in some radix. -/
def digitIn? (radix : Nat) (c : Char) : Option Nat :=
  match Json.hexValue? c with
  | some n => if n < radix then some n else none
  | none => none

/-- The number written in a radix; none without digits. -/
def numberIn? (radix : Nat) (cs : List Char) : Option Nat :=
  if cs.isEmpty then none
  else (cs.mapM (digitIn? radix)).map fun ds => ds.foldl (fun n d => radix * n + d) 0

/-- The number after a radix mark. -/
def markedNumber? : List Char → Option Nat
  | '0' :: 'x' :: ds => numberIn? 16 ds
  | '0' :: 'o' :: ds => numberIn? 8 ds
  | '0' :: 'b' :: ds => numberIn? 2 ds
  | _ => none

/-- The text after a sign, and whether the sign is a minus. -/
def unsigned : List Char → Bool × List Char
  | '-' :: cs => (true, cs)
  | '+' :: cs => (false, cs)
  | cs => (false, cs)

/-- Digits with a superfluous zero in front, signed or not: a text, not a number. -/
def isPaddedDigits (cs : List Char) : Bool :=
  match (unsigned cs).2 with
  | '0' :: d :: ds => (d :: ds).all Char.isDigit
  | _ => false

/-- The integer that a plain scalar stands for: whether it has a minus sign, and its size.  An
integer of more than 128 bits is none. -/
def integerOf? (cs : List Char) : Option (Bool × Nat) :=
  let (negative, ds) := unsigned cs
  match markedNumber? ds <|> if isPaddedDigits cs then none else numberIn? 10 ds with
  | some size =>
    let bound := Nat.pow 2 128
    if (if negative then 2 * size ≤ bound else size < bound) then some (negative, size) else none
  | none => none

/-! ## §3 Numbers -/

/-- The digits and the exponent of a decimal number: digits with at most one point among or
beside them, then perhaps an exponent. -/
def decimalOf? (cs : List Char) : Option (List Char × Int) :=
  let whole := cs.takeWhile Char.isDigit
  let rest := cs.dropWhile Char.isDigit
  let (fraction, rest) :=
    match rest with
    | '.' :: rest => (rest.takeWhile Char.isDigit, rest.dropWhile Char.isDigit)
    | rest => ([], rest)
  if whole.isEmpty ∧ fraction.isEmpty then none
  else
    match Json.exponent? rest with
    | some (none, []) => some (whole ++ fraction, -fraction.length)
    | some (some (negative, ds), []) =>
      let size : Int := Json.digitsValue ds
      some (whole ++ fraction, (if negative then -size else size) - fraction.length)
    | _ => none

/-- The number `digits × 10 ^ exponent` rounds to a finite double. -/
def fitsDouble (digits : List Char) (exponent : Int) : Bool :=
  let significand := digits.dropWhile (· == '0')
  -- The number lies below ten to the power of its magnitude.
  let magnitude : Int := significand.length + exponent
  let n := Json.digitsValue significand
  significand.isEmpty || magnitude ≤ 308
    || (magnitude ≤ 309
      && n * Nat.pow 10 exponent.toNat < Json.doubleBound * Nat.pow 10 (-exponent).toNat)

/-- The text is a number, be it finite or not. -/
def isNumber (text : String) : Bool :=
  text ∈ limitWords
    || match decimalOf? (unsigned text.toList).2 with
      | some (ds, exponent) => fitsDouble ds exponent
      | none => false

/-! ## §4 Values -/

/-- What a plain scalar stands for. -/
inductive PlainValue where
  | absent
  | flag (b : Bool)
  | integer (negative : Bool) (size : Nat)
  | number
  | text
  deriving DecidableEq, Inhabited, Repr

/-- The truth value of a word. -/
def flagOf? (text : String) : Option Bool :=
  if text ∈ trueWords then some true else if text ∈ falseWords then some false else none

/-- What the text of a plain scalar stands for. -/
def plainValue (text : String) : PlainValue :=
  if text = "" ∨ text ∈ nullWords then .absent
  else
    match flagOf? text, integerOf? text.toList with
    | some b, _ => .flag b
    | none, some (negative, size) => .integer negative size
    | none, none => if isNumber text ∧ ¬isPaddedDigits text.toList then .number else .text

end SchemaGraph.Yaml
