import SchemaGraph.Bytes.Deflate

/-!
# Gzip

Persisted caches are gzip files: a header, compressed contents, and the check and the size of what
was compressed.  Reading verifies the check and the size; what follows the file is not looked at.
-/

namespace SchemaGraph

/-! ## §1 Cyclic redundancy checks -/

namespace Crc32

/-- One bit of the division by the reflected polynomial. -/
def step (r : UInt32) : UInt32 :=
  if r &&& 1 = 1 then (r >>> 1) ^^^ 0xEDB88320 else r >>> 1

/-- The remainder after one more byte. -/
def update (r : UInt32) (b : UInt8) : UInt32 := Nat.repeat step 8 (r ^^^ b.toUInt32)

/-- The check of a message; all bits are inverted before and after. -/
def checksum (message : Bytes) : UInt32 := ~~~(message.foldl update 0xFFFFFFFF)

end Crc32

namespace Gzip

/-! ## §2 Headers -/

/-- The two bytes every gzip file begins with. -/
def magic : Bytes := [0x1f, 0x8b]

/-- The bytes begin like a gzip file. -/
def hasMagic (bytes : Bytes) : Bool := magic.isPrefixOf bytes

/-- The most bytes of a text in a header. -/
def maxText : Nat := 65535

/-- The bytes after a text that ends with a zero and is not too long. -/
def afterText? (bytes : Bytes) : Option Bytes :=
  match bytes.dropWhile (· != 0) with
  | [] => none
  | _ :: rest => if bytes.length - rest.length - 1 ≤ maxText then some rest else none

/-- The bytes after a field that begins with its size. -/
def afterSized? (bytes : Bytes) : Option Bytes :=
  match bytes with
  | a :: b :: rest =>
    let size := Bytes.littleEndianValue [a, b]
    if rest.length < size then none else some (rest.drop size)
  | _ => none

/-- The bytes after the check of a header, if it is that of the header's bytes. -/
def afterCheck? (header rest : Bytes) : Option Bytes :=
  match rest with
  | a :: b :: rest =>
    if Bytes.littleEndianValue [a, b] = (Crc32.checksum header).toNat % 65536 then some rest
    else none
  | _ => none

/-- The bytes after the header of a file. -/
def afterHeader? (bytes : Bytes) : Option Bytes := do
  let flags ← bytes[3]?
  if !hasMagic bytes || bytes[2]? != some 8 || bytes.length < 10 || flags.toNat ≥ 32 then none
  let rest := bytes.drop 10
  let rest ← if flags.toNat.testBit 2 then afterSized? rest else some rest
  let rest ← if flags.toNat.testBit 3 then afterText? rest else some rest
  let rest ← if flags.toNat.testBit 4 then afterText? rest else some rest
  if flags.toNat.testBit 1 then
    afterCheck? (bytes.take (bytes.length - rest.length)) rest
  else some rest

/-! ## §3 Files -/

/-- The contents of a gzip file. -/
def decompress? (bytes : Bytes) : Option Bytes := do
  let (contents, rest) ← Deflate.expand? (← afterHeader? bytes)
  if rest.length < 8 then none
  let check := Bytes.littleEndianValue (rest.take 4)
  let size := Bytes.littleEndianValue ((rest.drop 4).take 4)
  if check = (Crc32.checksum contents).toNat ∧ size = contents.length % 0x100000000 then
    some contents
  else none

/-- The gzip file of contents. -/
def compress (contents : Bytes) : Bytes :=
  magic ++ [8, 0, 0, 0, 0, 0, 0, 0xff] ++ Deflate.compress contents
    ++ Bytes.littleEndian 4 (Crc32.checksum contents).toNat
    ++ Bytes.littleEndian 4 contents.length

end Gzip

end SchemaGraph
