/-!
# Bytes

Sequences of bytes, and how texts, numbers and hexadecimal digits stand for them.
-/

namespace SchemaGraph

/-- A sequence of bytes. -/
abbrev Bytes := List UInt8

namespace Bytes

/-! ## §1 Hexadecimal digits -/

/-- The lower-case hexadecimal digit of a number below sixteen. -/
def hexDigit (n : Nat) : Char := Char.ofNat (if n < 10 then 48 + n else 87 + n)

/-- The bytes in hexadecimal, two digits for each. -/
def toHex (bytes : Bytes) : String :=
  String.ofList <| bytes.flatMap fun b => [hexDigit (b.toNat / 16), hexDigit (b.toNat % 16)]

/-! ## §2 Texts -/

/-- The bytes of a text in its eight-bit encoding form. -/
def ofText (s : String) : Bytes := s.toUTF8.toList

/-- The text that is encoded by the bytes, if they encode one. -/
def text? (bytes : Bytes) : Option String := String.fromUTF8? ⟨bytes.toArray⟩

/-- How many bytes of a character follow its first byte. -/
def trailLength? (lead : Nat) : Option Nat :=
  if lead < 0x80 then some 0
  else if lead < 0xC0 then none
  else if lead < 0xE0 then some 1
  else if lead < 0xF0 then some 2
  else if lead < 0xF8 then some 3
  else none

/-- The characters that the bytes encode, with some others in place of each byte that is part of
none. -/
def charsWith (stray : List Char) : Bytes → List Char
  | [] => []
  | b :: rest =>
    let trail := (trailLength? b.toNat).getD 0
    match text? (b :: rest.take trail) with
    | some s => s.toList ++ charsWith stray (rest.drop trail)
    | none => stray ++ charsWith stray rest
termination_by bytes => bytes.length

/-! ## §3 Numbers -/

/-- The big-endian bytes of a number, `width` of them. -/
def bigEndian : (width : Nat) → (n : Nat) → Bytes
  | 0, _ => []
  | width + 1, n => UInt8.ofNat (n / 256 ^ width) :: bigEndian width n

/-- The little-endian bytes of a number, `width` of them. -/
def littleEndian : (width : Nat) → (n : Nat) → Bytes
  | 0, _ => []
  | width + 1, n => UInt8.ofNat n :: littleEndian width (n / 256)

/-- The number of little-endian bytes. -/
def littleEndianValue : Bytes → Nat
  | [] => 0
  | b :: bs => b.toNat + 256 * littleEndianValue bs

end Bytes

end SchemaGraph
